import Boule.HotStuff.Records
import Boule.Node.Effects

/-! The records of a running node, on disk and in memory, and what an input can do to them: the
actions that are emitted, buffered, written, sent and put aside. -/
namespace Boule
open HotStuffCore (Emits SameRecords)

/-- What a node must remember across a crash, as levels. -/
structure Records where
  votedView : ℕ
  locked : Option Locked
  highQcView : ℕ
  proposedInView : ℕ
  deriving DecidableEq

def qcView (qc : Option QuorumCertificate) : ℕ := (qc.map QuorumCertificate.view).getD 0

namespace Records

def put (r : Records) : StateUpdate → Records
  | .votedInView view => { r with votedView := view }
  | .locked l => { r with locked := some l }
  | .highQc qc => { r with highQcView := qc.view }
  | .proposedInView view => { r with proposedInView := view }

/-- The records of a snapshot take the place of those that a restore writes. -/
def adopt (r : Records) (P : Primitives) (m : SnapshotManifest) (votedView : ℕ) : Records where
  votedView := votedView
  locked := some ⟨m.view, m.block.header.height, m.block.hash P⟩
  highQcView := m.commitQc.view
  proposedInView := r.proposedInView

end Records

def Storage.records (s : Storage) : Records where
  votedView := s.durableVotedView
  locked := s.locked
  highQcView := qcView s.highQc
  proposedInView := s.proposedInView.getD 0

def HotStuffCore.records (c : HotStuffCore) : Records where
  votedView := c.state.lastVotedView
  locked := c.state.locked
  highQcView := qcView c.state.highQc
  proposedInView := c.proposedInView

theorem HotStuffCore.SameRecords.records_eq {c c' : HotStuffCore} (h : SameRecords c c') :
    c'.records = c.records := by
  unfold HotStuffCore.records
  rw [h.lastVotedView, h.locked, h.highQc, h.proposedInView]

/-! ### What a running node goes through -/

/-- The lock after an update. -/
def StateUpdate.lockAfter (held : Option Locked) : StateUpdate → Option Locked
  | .locked l => some l
  | _ => held

/-- A running node. With each list under interpretation goes the lock that the core held when it
emitted the list's next action, and with each message that has left the one it was emitted
with. -/
structure Running where
  disk : Records
  delivered : List (ConsensusMsg × Option Locked)
  memory : Records
  stash : Option Proposal
  frames : List (Frame × Option Locked)

/-- Conditions on what a node does. -/
structure Guard where
  push : List Frame → HotStuffCore → List AcceptCall → List Action → Prop
  build : List Frame → Records → ℕ → Block → Prop
  adopt : List Frame → Records → SnapshotManifest → Prop

namespace Running

/-- The lists under interpretation. -/
def lists (s : Running) : List Frame := s.frames.map Prod.fst

/-- One change of the records of a running node. -/
inductive Move (P : Primitives) (G : Guard) : Running → Running → Prop
  | push (s : Running) {c c' : HotStuffCore} {calls : List AcceptCall} {actions : List Action}
    (emits : Emits P c calls actions c') (memory : c.records = s.memory)
    (guard : G.push s.lists c calls actions) :
    Move P G s { s with
      memory := c'.records
      frames := (⟨[], actions⟩, c.state.locked) :: s.frames }
  | quiet (s : Running) {actions : List Action} (held : Option Locked)
    (unrecorded : ∀ a ∈ actions, a.isRecord = false) :
    Move P G s { s with frames := (⟨[], actions⟩, held) :: s.frames }
  | build (s : Running) {view : ℕ} {block : Block} {qc : QuorumCertificate}
    (held : Option Locked) (guard : G.build s.lists s.memory view block) :
    Move P G s { s with
      memory := { s.memory with proposedInView := view }
      frames := (⟨[], [.persist (.proposedInView view), .broadcast (.proposal ⟨block, qc⟩)]⟩,
        held) :: s.frames }
  | buffer (s : Running) {buf : List StateUpdate} {u : StateUpdate} {rest : List Action}
    {held : Option Locked} {frames : List (Frame × Option Locked)}
    (top : s.frames = (⟨buf, .persist u :: rest⟩, held) :: frames) :
    Move P G s { s with frames := (⟨buf ++ [u], rest⟩, u.lockAfter held) :: frames }
  | flush (s : Running) {buf : List StateUpdate} {rest : List Action} {held : Option Locked}
    {frames : List (Frame × Option Locked)} (top : s.frames = (⟨buf, rest⟩, held) :: frames) :
    Move P G s { s with
      disk := buf.foldl Records.put s.disk
      frames := (⟨[], rest⟩, held) :: frames }
  | deliver (s : Running) {msg msg' : ConsensusMsg} {rest : List Action} {held : Option Locked}
    {frames : List (Frame × Option Locked)}
    (top : s.frames = (⟨[], .broadcast msg :: rest⟩, held) :: frames)
    (same : msg' = msg ∨ ∃ p p', msg = .proposal p ∧ msg' = .proposal p' ∧
      p'.block.header.view = p.block.header.view) :
    Move P G s { s with
      delivered := s.delivered ++ [(msg', held)]
      frames := (⟨[], rest⟩, held) :: frames }
  | hold (s : Running) {p p' : Proposal} {rest : List Action} {held : Option Locked}
    {frames : List (Frame × Option Locked)}
    (top : s.frames = (⟨[], .broadcast (.proposal p) :: rest⟩, held) :: frames)
    (same : p'.block.header.view = p.block.header.view) :
    Move P G s { s with stash := some p', frames := (⟨[], rest⟩, held) :: frames }
  | skip (s : Running) {action : Action} {rest : List Action} {held : Option Locked}
    {frames : List (Frame × Option Locked)}
    (top : s.frames = (⟨[], action :: rest⟩, held) :: frames)
    (unwritten : ∀ u, action ≠ .persist u) :
    Move P G s { s with frames := (⟨[], rest⟩, held) :: frames }
  | finish (s : Running) {held : Option Locked} {frames : List (Frame × Option Locked)}
    (top : s.frames = (⟨[], []⟩, held) :: frames) : Move P G s { s with frames := frames }
  | release (s : Running) {p : Proposal} (held : Option Locked) (stashed : s.stash = some p) :
    Move P G s { s with delivered := s.delivered ++ [(.proposal p, held)], stash := none }
  | adopt (s : Running) {m : SnapshotManifest} (guard : G.adopt s.lists s.disk m) :
    Move P G s { s with
      disk := s.disk.adopt P m m.view
      memory := s.memory.adopt P m (max s.memory.votedView m.view) }

/-- Any number of changes. -/
abbrev Moves (P : Primitives) (G : Guard) : Running → Running → Prop :=
  Relation.ReflTransGen (Move P G)

end Running

/-! ### The records of a machine -/

/-- A machine with the locks held: for each list under interpretation, the lock at its next
action, and for each message that has left, the lock at its emission. -/
structure Logbook where
  machine : Machine
  held : List (Option Locked)
  delivered : List (ConsensusMsg × Option Locked)

namespace Machine

/-- The core whose step emits actions when the input comes. -/
def stepping (P : Primitives) (m : Machine) (n : ConsensusNode) : NodeInput → HotStuffCore
  | .dispatch _ validated d => (n.applyDispatch P validated d).1.core
  | .restore _ _ manifest => (n.restore P m.storage manifest).2.1.core
  | _ => n.core

/-- The locks of the lists that are there already, after the input. -/
def heldAfter (m : Machine) (held : List (Option Locked)) : NodeInput → List (Option Locked)
  | .interpret _ =>
    match m.process.map Process.frames, held with
    | some (⟨_, []⟩ :: _), _ :: held => held
    | some (⟨_, .persist u :: _⟩ :: _), l :: held => u.lockAfter l :: held
    | _, held => held
  | _ => held

end Machine

namespace Logbook

def start : Logbook := ⟨.start, [], []⟩

section
variable (P : Primitives) (V : Verifier) (R : ReconfigPrimitives) (cfg : NodeConfig)

/-- The locks of all lists: a list that is new starts with the lock of the core that has
stepped. -/
def heldNext (w : Logbook) (input : NodeInput) (m : Machine) : List (Option Locked) :=
  match w.machine.process, m.process with
  | some p, some p' =>
    let held := w.machine.heldAfter w.held input
    if held.length < p'.frames.length then
      (w.machine.stepping P p.node input).state.locked :: held
    else held
  | _, _ => []

def step (w : Logbook) (input : NodeInput) : Logbook :=
  let m := w.machine.step P V R cfg input
  { machine := m
    held := w.heldNext P input m
    delivered := w.delivered ++
      (m.sent.drop w.machine.sent.length).map fun msg => (msg, w.held.head?.join) }

end

/-- The records of the node. -/
def running (w : Logbook) (p : Process) : Running where
  disk := w.machine.storage.records
  delivered := w.delivered
  memory := p.node.core.records
  stash := p.node.stashedProposal
  frames := p.frames.zip w.held

/-- Every list has its lock, and the messages that have left are those of the machine. -/
structure Matches (w : Logbook) : Prop where
  held : w.held.length = (w.machine.process.elim [] Process.frames).length
  delivered : w.delivered.map Prod.fst = w.machine.sent

end Logbook

/-! ### The records under the operations of a node -/

theorem sameRecords_insertValidatorBoundary {c c' : HotStuffCore} {vEff : ℕ}
    {set : ValidatorSet} (h : c.insertValidatorBoundary vEff set = .ok c') :
    SameRecords c c' := by
  obtain ⟨history, -, h⟩ := bind_eq_ok.mp h
  obtain rfl := Except.ok.inj h
  exact ⟨rfl, rfl, rfl, rfl⟩

theorem sameRecords_replayBoundaries (c : HotStuffCore) (boundaries : List (ℕ × ValidatorSet)) :
    SameRecords c (replayBoundaries c boundaries).1 := by
  induction boundaries generalizing c with
  | nil => exact .refl c
  | cons b bs ih =>
    rw [replayBoundaries]
    split_ifs
    · exact ih c
    · cases hc : c.insertValidatorBoundary b.1 b.2 with
      | error e => exact .refl c
      | ok c' => exact (sameRecords_insertValidatorBoundary hc).trans (ih c')

theorem sameRecords_insertPendingBlock (P : Primitives) (c : HotStuffCore) (b : Block) :
    SameRecords c (c.insertPendingBlock P b) := by
  constructor <;> simp [HotStuffCore.insertPendingBlock]

namespace ConsensusNode
open HotStuffState

theorem sameRecords_insertPendingBlocks (P : Primitives) (n : ConsensusNode)
    (blocks : List Block) : SameRecords n.core (n.insertPendingBlocks P blocks).core := by
  show SameRecords n.core (blocks.foldl (HotStuffCore.insertPendingBlock P) n.core)
  generalize n.core = c
  induction blocks generalizing c with
  | nil => exact .refl c
  | cons b bs ih => exact (sameRecords_insertPendingBlock P c b).trans (ih _)

/-- A dispatch leaves the records and the stash to the step of the core that follows. -/
theorem applyDispatch_records (P : Primitives) (n : ConsensusNode) (validated : Bool)
    (d : Dispatch) :
    SameRecords n.core (n.applyDispatch P validated d).1.core ∧
      (n.applyDispatch P validated d).1.stashedProposal = n.stashedProposal := by
  cases d with
  | receiveBlock requestedHash block sender =>
    cases block with
    | none => exact ⟨.refl _, rfl⟩
    | some block =>
      simp only [applyDispatch]
      split_ifs
      · exact ⟨.refl _, rfl⟩
      · exact ⟨.refl _, rfl⟩
      · exact ⟨n.sameRecords_insertPendingBlocks P [block], rfl⟩
  | receiveBlockRange fromHeight toHeight blocks sender =>
    simp only [applyDispatch]
    split_ifs
    · exact ⟨.refl _, rfl⟩
    · exact ⟨sameRecords_insertPendingBlocks P _ _, rfl⟩
    · exact ⟨sameRecords_insertPendingBlocks P _ _, rfl⟩
  | _ => exact ⟨.refl _, rfl⟩

theorem applyReconfig_records (n : ConsensusNode) (cmd : ReconfigCommand)
    (newSet : ValidatorSet) : SameRecords n.core (n.applyReconfig cmd newSet).1.core ∧
      (n.applyReconfig cmd newSet).1.stashedProposal = n.stashedProposal := by
  unfold applyReconfig
  split
  · exact ⟨.refl _, rfl⟩
  · split
    · exact ⟨.refl _, rfl⟩
    · exact ⟨sameRecords_insertValidatorBoundary ‹_›, rfl⟩

theorem applyReconfigs_records (R : ReconfigPrimitives) (delay : ℕ) (chainId : ChainId)
    (n : ConsensusNode) (block : Block) :
    SameRecords n.core (n.applyReconfigs R delay chainId block).1.core ∧
      (n.applyReconfigs R delay chainId block).1.stashedProposal = n.stashedProposal := by
  unfold applyReconfigs
  generalize block.commands = commands
  generalize hp : (n, false) = progress
  have hn : SameRecords n.core progress.1.core ∧
      progress.1.stashedProposal = n.stashedProposal := by
    rw [← hp]
    exact ⟨.refl _, rfl⟩
  clear hp
  induction commands generalizing progress with
  | nil => exact hn
  | cons bytes commands ih =>
    apply ih
    unfold applyReconfigPayload
    split
    · exact hn
    · obtain ⟨hc, hs⟩ := applyReconfig_records progress.1 _ _
      exact ⟨hn.1.trans hc, hs.trans hn.2⟩

theorem applyCommit_records {P : Primitives} {R : ReconfigPrimitives} {cfg : NodeConfig}
    {storage storage' : Storage} {n n' : ConsensusNode} {block : Block}
    (h : n.applyCommit P R cfg storage block = some (storage', n')) :
    storage'.records = storage.records ∧ SameRecords n.core n'.core ∧
      n'.stashedProposal = n.stashedProposal := by
  obtain ⟨rfl, rfl⟩ := Prod.mk.inj (applyCommit_eq_some h)
  obtain ⟨hc, hs⟩ := applyReconfigs_records R cfg.minVEffDelay (cfg.chainId P)
    (n.advanced block.header.height block.header.view) block
  rw [advanced_core] at hc
  rw [advanced_stashedProposal] at hs
  exact ⟨rfl, hc, hs⟩

theorem recoverState_records (P : Primitives) (storage : Storage) (vs : ValidatorSet)
    (genesis : Block) :
    (recoverState P storage vs genesis).lastVotedView = storage.durableVotedView ∧
      (recoverState P storage vs genesis).locked = storage.locked ∧
      (recoverState P storage vs genesis).highQc =
        some (storage.highQc.getD (genesisQc P genesis vs)) := by
  refine recoverState_invariant (I := fun s => s.lastVotedView = storage.durableVotedView ∧
    s.locked = storage.locked ∧ s.highQc = some (storage.highQc.getD (genesisQc P genesis vs)))
    ?_ ⟨rfl, rfl, rfl⟩
  intro s b h hb hs
  rwa [insertPending_lastVotedView, insertPending_locked, insertPending_highQc]

theorem withLimits_records (P : Primitives) (cfg : NodeConfig) (storage : Storage) :
    ((HotStuffCore.withLimits cfg.selfId (recoverState P storage cfg.validatorSet
      (cfg.genesis P)) cfg.limits).withProposedInView (storage.proposedInView.getD 0)).records =
      storage.records := by
  obtain ⟨hvoted, hlocked, hqc⟩ := recoverState_records P storage cfg.validatorSet (cfg.genesis P)
  have hview : qcView (some (storage.highQc.getD (genesisQc P (cfg.genesis P)
      cfg.validatorSet))) = qcView storage.highQc := by
    cases storage.highQc <;> rfl
  rw [← hqc] at hview
  unfold HotStuffCore.records Storage.records
  rw [← hvoted, ← hlocked, ← hview]
  rfl

/-- A node starts with the records on disk. -/
theorem recover_records {P : Primitives} {cfg : NodeConfig} {storage : Storage}
    {n : ConsensusNode} (h : recover P cfg storage = some n) :
    n.core.records = storage.records ∧ n.stashedProposal = none := by
  have hsame := sameRecords_replayBoundaries (startingCore P cfg storage) n.validatorHistory.iter
  rw [(recovered_of_recover h).core] at hsame
  exact ⟨hsame.records_eq.trans (withLimits_records P cfg storage),
    (recovered_of_recover h).stashedProposal⟩

/-- A restore adopts the records of the snapshot, whether it succeeds or not. -/
theorem restore_records (P : Primitives) (storage : Storage) (n : ConsensusNode)
    (m : SnapshotManifest) :
    (n.restore P storage m).1.records = storage.records.adopt P m m.view ∧
      (n.restore P storage m).2.1.core.records =
        n.core.records.adopt P m (max n.core.records.votedView m.view) ∧
      (n.restore P storage m).2.1.stashedProposal = n.stashedProposal := by
  have hinstall : ∀ (storage : Storage) (n : ConsensusNode),
      (installHistories storage n m).1.records = storage.records ∧
        SameRecords n.core (installHistories storage n m).2.1.core ∧
        (installHistories storage n m).2.1.stashedProposal = n.stashedProposal := by
    intro storage n
    unfold installHistories
    simp only
    split
    · exact ⟨rfl, .refl _, rfl⟩
    · split_ifs
      · exact ⟨rfl, sameRecords_replayBoundaries _ _, rfl⟩
      · exact ⟨rfl, sameRecords_replayBoundaries _ _, rfl⟩
  have hadopt : (n.core.adoptSnapshot P m.block m.commitQc m.view).1.records =
      n.core.records.adopt P m (max n.core.records.votedView m.view) := by
    unfold HotStuffCore.records HotStuffCore.adoptSnapshot Records.adopt
    simp only [insertPending_lastVotedView]
    congr 1
    split_ifs <;> omega
  obtain ⟨hstorage, hnode⟩ := n.restore_installs P storage m
  obtain ⟨hs, hc, hstash⟩ := hinstall (writeSnapshot storage m
    (n.core.adoptSnapshot P m.block m.commitQc m.view).2) ((n.adopt P m).raiseCommitted m)
  rw [hstorage, hnode]
  refine ⟨hs, ?_, hstash.trans ((n.adopt P m).advanced_stashedProposal m.height m.view)⟩
  rw [hc.records_eq, core_raiseCommitted_adopt, hadopt]

end ConsensusNode

namespace Storage

theorem records_putReferenced (pending : Table BlockHash Block) (s : Storage)
    (updates : List StateUpdate) :
    (updates.foldl (putReferenced pending) s).records = s.records := by
  induction updates generalizing s with
  | nil => rfl
  | cons u us ih =>
    rw [List.foldl_cons, ih]
    rcases putReferenced_eq pending s u with he | ⟨h, b, -, he⟩ <;> rw [he]
    rfl

theorem records_persistUpdates (s : Storage) (pending : Table BlockHash Block)
    (updates : List StateUpdate) :
    (s.persistUpdates pending updates).records = updates.foldl Records.put s.records := by
  unfold persistUpdates
  rw [records_putReferenced]
  induction updates generalizing s with
  | nil => rfl
  | cons u us ih =>
    rw [List.foldl_cons, ih]
    cases u <;> rfl

end Storage

end Boule
