import Boule.Dispatch.Ingress
import Boule.HotStuff.Calls
import Boule.Lib.Run
import Boule.Node.ConsensusNode

/-! A node as a process: events, the interpretation of the actions they cause, crashes and
restarts. Interpreting an action may deliver further events before the next action of the same
list (a broadcast is looped back to the sender), so the lists under interpretation form a
stack, and any input may come while it is not empty. -/
namespace Boule

/-- One call of `apply_safety_actions`: the updates it has buffered and the actions left. -/
structure Frame where
  persistBuf : List StateUpdate
  rest : List Action
  deriving DecidableEq

structure Process where
  node : ConsensusNode
  frames : List Frame
  deriving DecidableEq

/-- `sent` and `emitted` record what has left the node and what its core has asked for. -/
structure Machine where
  storage : Storage
  process : Option Process
  sent : List ConsensusMsg
  emitted : List Action
  deriving DecidableEq

/-- What the application and the clock answer while an action is interpreted: the state root,
which commands may be included, the block that was built, whether a proposal comes too soon. -/
structure Answers where
  stateCommitment : Bytes32
  check : Bytes → Bool
  built : Option Block
  tooSoon : Bool

inductive NodeInput where
  | boot
  | crash
  | dispatch (order : IterOrder) (validated : Bool) (d : Dispatch)
  | becomeLeader (view : ℕ)
  | blockSyncRetryTick
  | blockRangeRequest (proposer : NodeId) (proposalHeight : ℕ)
  | blockRangeRetry (due : ℕ × ℕ → Bool)
  | restore (order : IterOrder) (restored : Bool) (manifest : SnapshotManifest)
  | interpret (answers : Answers)
  | releaseStashed

/-- The tags of the commands that the application does not check. -/
def systemTags : List Bytes :=
  [[0x56, 0x4b, 0x52, 0x4f, 0x54, 0x00], [0x56, 0x4b, 0x43, 0x41, 0x4e, 0x00],
    [0x56, 0x4b, 0x4f, 0x50, 0x52, 0x00], [0x4f, 0x4b, 0x52, 0x4f, 0x54, 0x00], reconfigTag,
    [0x45, 0x56, 0x44, 0x4e, 0x43, 0x00], [0x43, 0x50, 0x41, 0x52, 0x4d, 0x00],
    [0x45, 0x4e, 0x44, 0x50, 0x54, 0x00]]

def isSystemCommand (cmd : Bytes) : Bool := systemTags.any (·.isPrefixOf cmd)

def blockRangeResponseMaxBlocks : ℕ := 64

namespace ConsensusNode

/-- The vote's block claims another state root for the height this node has committed. -/
def diverges (n : ConsensusNode) (answers : Answers) (vote : Vote) : Bool :=
  (n.core.state.getPending vote.blockHash).any fun block =>
    block.header.committedHeight = n.lastCommittedHeight &&
      block.header.committedStateRoot ≠ answers.stateCommitment

/-- The vote's block holds a command that the application refuses. -/
def rejects (n : ConsensusNode) (answers : Answers) (vote : Vote) : Bool :=
  (n.core.state.getPending vote.blockHash).any fun block =>
    block.commands.any fun cmd => !isSystemCommand cmd && !answers.check cmd

def stampProposal (V : Verifier) (cfg : NodeConfig) (P : Primitives) (n : ConsensusNode)
    (p : Proposal) : Proposal :=
  let commitment := V.postBlockCommitment p.block n.validatorHistory n.validatorKeyHistory
    n.blsKeyHistory (some n.operatorKeyHistory) (cfg.chainId P) cfg.minVEffDelay
  { p with block := { p.block with
    header := { p.block.header with validatorHistoryCommitment := commitment } } }

/-- The blocks of a range response that are taken: in range, and each higher than the last
one taken. -/
def takenFromRange (fromHeight toHeight : ℕ) : Option ℕ → List Block → List Block
  | _, [] => []
  | lastHeight, b :: bs =>
    let h := b.header.height
    if h < fromHeight || toHeight < h then takenFromRange fromHeight toHeight lastHeight bs
    else if lastHeight.any (h ≤ ·) then takenFromRange fromHeight toHeight lastHeight bs
    else b :: takenFromRange fromHeight toHeight (some h) bs

def insertPendingBlocks (P : Primitives) (n : ConsensusNode) (blocks : List Block) :
    ConsensusNode :=
  { n with core := blocks.foldl (HotStuffCore.insertPendingBlock P) n.core }

def maybeEmitBlockRangeRequest (n : ConsensusNode) (proposer : NodeId) (proposalHeight : ℕ) :
    ConsensusNode :=
  let parentHeight := proposalHeight - 1
  let fromHeight := min (n.lastCommittedHeight + 1) (2 ^ 64 - 1)
  if proposer = n.core.selfId || parentHeight ≤ fromHeight then n
  else
    let toHeight := min parentHeight (addU64 fromHeight (blockRangeResponseMaxBlocks - 1))
    if n.blockSyncRangeInflight.containsKey (fromHeight, toHeight) then n
    else
      { n with blockSyncRangeInflight :=
          n.blockSyncRangeInflight.insert (fromHeight, toHeight) ⟨proposer, 1⟩ }

/-- Requests out of attempts are dropped, the others count one more when they are due. -/
def maintainBlockSyncRangeRetry (n : ConsensusNode) (due : ℕ × ℕ → Bool) : ConsensusNode :=
  let retry := fun (t : Table (ℕ × ℕ) BlockSyncRangeInflight)
      (e : (ℕ × ℕ) × BlockSyncRangeInflight) =>
    if n.core.limits.blockSyncMaxAttempts ≤ e.2.attempts then t.erase e.1
    else if due e.1 then
      t.insert e.1 { e.2 with attempts := saturatingAddU32 e.2.attempts 1 }
    else t
  { n with blockSyncRangeInflight :=
      n.blockSyncRangeInflight.toList.foldl retry n.blockSyncRangeInflight }

/-- `apply_dispatch` up to the event it hands to the core. Serving peers changes nothing here;
what a timeout vote or a snapshot message leads to comes as an input of its own. -/
def applyDispatch (P : Primitives) (n : ConsensusNode) (validated : Bool) :
    Dispatch → ConsensusNode × Option Event
  | .safety event => (n, if event.proposal?.isSome && !validated then none else some event)
  | .pacemaker event =>
    let (pacemaker, actions) := n.pacemaker.step n.leads event
    ({ n with pacemaker := pacemaker },
      match actions with
      | .advanceToView view _ :: _ => some (.pacemakerAdvance view)
      | _ => none)
  | .receiveBlock requestedHash (some block) _ =>
    if block.hash P ≠ requestedHash then (n, none)
    else if !n.core.blockSyncInflight.containsKey requestedHash then (n, none)
    else (n.insertPendingBlocks P [block], some (.pacemakerAdvance n.currentView))
  | .receiveBlockRange fromHeight toHeight blocks _ =>
    if !n.blockSyncRangeInflight.containsKey (fromHeight, toHeight) then (n, none)
    else
      let n := { n with
        blockSyncRangeInflight := n.blockSyncRangeInflight.erase (fromHeight, toHeight) }
      let taken := takenFromRange fromHeight toHeight none blocks
      (n.insertPendingBlocks P taken,
        if taken.isEmpty then none else some (.pacemakerAdvance n.currentView))
  | _ => (n, none)

/-- A failed restore leaves what it has done so far; a successful one is followed by
`PacemakerAdvance`. -/
def restore (P : Primitives) (storage : Storage) (n : ConsensusNode)
    (manifest : SnapshotManifest) : Storage × ConsensusNode × Option Event :=
  let (storage, n, ok) := n.restoreFromSnapshot P storage manifest
  (storage, n, if ok then some (.pacemakerAdvance n.currentView) else none)

/-- A restore installs the histories over the batch, on the node that has adopted the block. -/
theorem restore_installs (P : Primitives) (storage : Storage) (n : ConsensusNode)
    (m : SnapshotManifest) :
    (n.restore P storage m).1 = (installHistories (writeSnapshot storage m
        (n.core.adoptSnapshot P m.block m.commitQc m.view).2)
          ((n.adopt P m).raiseCommitted m) m).1 ∧
      (n.restore P storage m).2.1 = (installHistories (writeSnapshot storage m
        (n.core.adoptSnapshot P m.block m.commitQc m.view).2)
          ((n.adopt P m).raiseCommitted m) m).2.1 := ⟨rfl, rfl⟩

end ConsensusNode

namespace Machine

def start : Machine where
  storage := .empty
  process := none
  sent := []
  emitted := []

/-- Start interpreting what the core has emitted. -/
def push (m : Machine) (n : ConsensusNode) (frames : List Frame) (actions : List Action) :
    Machine :=
  { m with
    process := some ⟨n, ⟨[], actions⟩ :: frames⟩
    emitted := m.emitted ++ actions }

section
variable (P : Primitives) (V : Verifier) (R : ReconfigPrimitives) (cfg : NodeConfig)

def stepSafety (m : Machine) (n : ConsensusNode) (frames : List Frame) (order : IterOrder)
    (event : Event) : Machine :=
  let (core, actions) := n.core.step P order event
  m.push { n with core := core } frames actions

/-- `recover` and the startup check; a node that fails either does not run. -/
def boot (m : Machine) : Machine :=
  match ConsensusNode.recover P cfg m.storage with
  | none => { m with process := none }
  | some n =>
    if n.weakSubjectivityOnStartup cfg m.storage then { m with process := some ⟨n, []⟩ }
    else { m with process := none }

def keep (m : Machine) (n : ConsensusNode) (frames : List Frame) : Machine :=
  { m with process := some ⟨n, frames⟩ }

/-- Go on with the node that an input leaves, and with the event it hands to the core. -/
def feed (m : Machine) (frames : List Frame) (order : IterOrder)
    (fed : ConsensusNode × Option Event) : Machine :=
  match fed.2 with
  | none => m.keep fed.1 frames
  | some event => m.stepSafety P fed.1 frames order event

/-- One action that is not a `Persist`, with the frames that are left. -/
def handleAction (m : Machine) (n : ConsensusNode) (frames : List Frame) (answers : Answers) :
    Action → Machine
  | .broadcast msg =>
    if n.isFull then m.keep n frames
    else
      match msg with
      | .proposal p =>
        let stamped := n.stampProposal V cfg P p
        if answers.tooSoon then
          m.keep { n with stashedProposal := some stamped } frames
        else { m.keep n frames with sent := m.sent ++ [.proposal stamped] }
      | .vote vote =>
        if n.diverges answers vote || n.rejects answers vote then m.keep n frames
        else { m.keep n frames with sent := m.sent ++ [.vote vote] }
      | .newView nv => { m.keep n frames with sent := m.sent ++ [.newView nv] }
  | .commit block =>
    match n.applyCommit P R cfg m.storage block with
    | none => { m with process := none }
    | some (storage, n) => { m.keep n frames with storage := storage }
  | .buildProposal view highQc _ =>
    match if n.isFull then none else answers.built with
    | none => m.keep n frames
    | some block =>
      let (core, actions) := n.core.proposalBuilt view block highQc
      m.push { n with core := core } frames actions
  | _ => m.keep n frames

/-- One round of the loop of `apply_safety_actions`, or the flush before or after it. -/
def interpret (m : Machine) (n : ConsensusNode) (frames : List Frame) (answers : Answers) :
    Machine :=
  match frames with
  | [] => m
  | ⟨buf, rest⟩ :: frames =>
    let flushed := { m with storage := m.storage.persistUpdates n.core.state.pendingBlocks buf }
    match rest with
    | [] => flushed.keep n frames
    | .persist u :: rest => m.keep n (⟨buf ++ [u], rest⟩ :: frames)
    | action :: rest =>
      if buf.isEmpty then m.handleAction P V R cfg n (⟨[], rest⟩ :: frames) answers action
      else flushed.keep n (⟨[], action :: rest⟩ :: frames)

def releaseStashed (m : Machine) (n : ConsensusNode) (frames : List Frame) : Machine :=
  match n.stashedProposal with
  | none => m
  | some p =>
    { m.keep { n with stashedProposal := none } frames with sent := m.sent ++ [.proposal p] }

def step (m : Machine) (input : NodeInput) : Machine :=
  match input, m.process with
  | .boot, none => m.boot P cfg
  | .boot, some _ => m
  | .crash, _ => { m with process := none }
  | _, none => m
  | .dispatch order validated d, some ⟨n, frames⟩ =>
    m.feed P frames order (n.applyDispatch P validated d)
  | .becomeLeader view, some ⟨n, frames⟩ =>
    if n.isFull then m else m.push n frames (n.core.becomeLeader view)
  | .blockSyncRetryTick, some ⟨n, frames⟩ =>
    let (core, actions) := n.core.stepBlockSyncRetryTick
    m.push { n with core := core } frames actions
  | .blockRangeRequest proposer proposalHeight, some ⟨n, frames⟩ =>
    m.keep (n.maybeEmitBlockRangeRequest proposer proposalHeight) frames
  | .blockRangeRetry due, some ⟨n, frames⟩ => m.keep (n.maintainBlockSyncRangeRetry due) frames
  | .restore order restored manifest, some ⟨n, frames⟩ =>
    if restored then
      let r := n.restore P m.storage manifest
      feed P { m with storage := r.1 } frames order r.2
    else m
  | .interpret answers, some ⟨n, frames⟩ => m.interpret P V R cfg n frames answers
  | .releaseStashed, some ⟨n, frames⟩ => m.releaseStashed n frames

end

end Machine

/-! ### A small instance

Validator 1 of four, with hashes that tell blocks of one view apart by their timestamps. -/

namespace Sample

def timed : Primitives where
  headerHash := fun h => 2 * h.view + h.timestamp + 1
  commandsHash := fun c => c.length
  addSignature := fun a b => a + b

def reconfigs : ReconfigPrimitives where
  decodeBody := fun _ => none
  popVerifies := fun _ _ => true
  consentVerifies := fun _ _ _ => true

def config : NodeConfig where
  selfId := 1
  validatorSet := validators
  genesisStateCommitment := 0
  genesisHistoryCommitment := 0
  limits := .unboundedForTests
  minVEffDelay := 4
  blockRetentionWindow := 0
  weakSubjectivityCheckpoint := none
  operatorKeys := []
  genesisBls := [(1, 11), (2, 12), (3, 13), (4, 14)]

def root : Block := config.genesis timed

def stepNode (m : Machine) (input : NodeInput) : Machine :=
  m.step timed verifier reconfigs config input

/-- A block on `parent` whose header commits to its commands. -/
def blockOn (parent : Block) (view timestamp : ℕ) (commands : List Bytes) : Block where
  header := { (child parent view).header with
    parentHash := parent.hash timed
    commandsCommitment := timed.commandsHash commands
    timestamp := timestamp }
  commands := commands

/-- The certificate of `b` by the first three validators. -/
def certificate (b : Block) : QuorumCertificate :=
  { certify b [0, 1, 2] with blockHash := b.hash timed }

/-- A proposal signed by validator 2, as a wire message. -/
def signedOn (b : Block) (justify : QuorumCertificate) : Signed Proposal := ⟨⟨b, justify⟩, 2, 0⟩

/-- The proposal as ingress hands it on. -/
def proposed (b : Block) (justify : QuorumCertificate) : NodeInput :=
  .dispatch order true (.safety (.proposalReceived ⟨signedOn b justify, 2⟩))

/-- The dispatches of an accepted proposal of validator 2. -/
def proposalDispatches (signed : Signed Proposal) : List Dispatch :=
  [.safety (.proposalReceived ⟨signed, 2⟩),
    .pacemaker (.onProposalReceived signed.payload.block.header.view),
    .pacemaker (.onQc signed.payload.justify.view)]

/-- The next `k` rounds of the interpreter, with an application that accepts everything. -/
def rounds (k : ℕ) : List NodeInput :=
  List.replicate k (.interpret ⟨0, fun _ => true, none, false⟩)

/-- The snapshot of a block that leaves the validators as they are. -/
def snapshotOf (b : Block) : SnapshotManifest where
  version := snapshotFormatVersion
  height := b.header.height
  view := b.header.view
  blockHash := b.hash timed
  stateCommitment := b.header.stateCommitment
  validatorSet := validators.members
  chunkSize := 1
  chunkCount := 0
  chunkHashes := []
  commitQc := certificate b
  block := b
  createdUnixSecs := 0
  validatorHistory := (ValidatorSetHistory.fromGenesis validators).toPersisted
  validatorKeyHistory := (ValidatorKeyHistory.new validators.members).toPersisted
  blsKeyHistory := some (BlsKeyHistory.withGenesis config.genesisBls).toPersisted
  operatorKeyHistory := none

end Sample

end Boule
