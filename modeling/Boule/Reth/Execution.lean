import Boule.Reth.Application

/-! The execution layer behind the consensus: what the node does when its answers come late. -/
namespace Boule

/-- What a node keeps of its commits, and its application. -/
structure ElNode where
  app : RethApplication
  lastCommittedHeight : ℕ
  retained : List RethBlock
  stagedValidatorUpdates : List ValidatorUpdate
  stagedEffects : List ValidatorEffect
  deriving DecidableEq

namespace ElNode

def start (app : RethApplication) : ElNode := ⟨app, 0, [], [], []⟩

section
variable (logsAt : ℕ → List Log)

def stageAppValidatorUpdates (n : ElNode) (result : CommitResult) : ElNode :=
  { n with
    stagedValidatorUpdates := n.stagedValidatorUpdates ++ result.validatorUpdates
    stagedEffects := n.stagedEffects ++ result.effects }

/-- The part of `apply_commit` that concerns the execution layer: the height, the stored blocks of
which the oldest are pruned, and the evidence. -/
def applyCommit (window : ℕ) (n : ElNode) (b : RethBlock) : ElNode :=
  let height := max n.lastCommittedHeight b.height
  { n with
    lastCommittedHeight := height
    retained := (n.retained ++ [b]).filter fun b' => window = 0 ∨ height ≤ b'.height + window
    app := b.offenders.foldl RethApplication.slash n.app }

def commitBlock (window : ℕ) (n : ElNode) (b : RethBlock) (answer : ElAnswer) : ElNode :=
  let (app, result) := n.app.commit logsAt b answer
  let n := { n with app := app }
  applyCommit window
    (match result with
    | some result => n.stageAppValidatorUpdates result
    | none => n) b

/-- The head that reth reports counts when it is below the tracked frontier. -/
def elFrontier (n : ElNode) : Option ℕ → ℕ
  | none => n.app.committed.height
  | some head => if head < n.app.committed.height then head else n.app.committed.height

/-- The committed blocks that are replayed: none when the gap is small or not fully stored. -/
def replayed (n : ElNode) (minGap : ℕ) (elHead : Option ℕ) : List RethBlock :=
  let frontier := n.elFrontier elHead
  if n.lastCommittedHeight = 0 ∨ n.lastCommittedHeight - frontier < max minGap 1 then []
  else
    let gap := (List.range' (frontier + 1) (n.lastCommittedHeight - frontier)).filterMap fun h =>
      n.retained.find? fun b => b.height = h
    if gap.length < n.lastCommittedHeight - frontier then [] else gap

/-- The results of the commits go nowhere; a failed one ends the replay. -/
def replayBlocks (answers : ℕ → ElAnswer) (app : RethApplication) :
    List RethBlock → RethApplication
  | [] => app
  | b :: gap =>
    match app.commit logsAt b (answers b.height) with
    | (app, some _) => replayBlocks answers app gap
    | (app, none) => app

def elCatchupReplay (n : ElNode) (minGap : ℕ) (elHead : Option ℕ) (answers : ℕ → ElAnswer) :
    ElNode :=
  { n with app := replayBlocks logsAt answers n.app (n.replayed minGap elHead) }

end

/-- A new process: the stored blocks are there, the application starts from the genesis and from
the finalized head of reth, and nothing is staged. -/
def restart (genesis : List (NodeId × ℕ)) (genesisRoot : Bytes32) (n : ElNode)
    (finalized : Option (ℕ × Bytes32)) : ElNode :=
  let app := RethApplication.start genesis genesisRoot
  { n with
    app :=
      match finalized with
      | none => app
      | some (height, stateRoot) => app.recoverFrontier height stateRoot
    stagedValidatorUpdates := []
    stagedEffects := [] }

end ElNode

end Boule
