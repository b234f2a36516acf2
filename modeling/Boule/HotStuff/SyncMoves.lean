import Boule.HotStuff.Calls
import Boule.Lib.Run

/-! A step of the core as the moves it is made of. A move changes the requests in flight for a
block at most once. -/
namespace Boule

/-- What a run consists of: events, blocks that come by themselves and ticks of the retry
timer. -/
inductive StepInput where
  | event (order : IterOrder) (event : Event)
  | insertPendingBlock (block : Block)
  | blockSyncRetryTick

/-- A handler, or one round of a loop in it. `rest` are the parked proposals that the same step
has yet to resume. -/
inductive SyncMove where
  | checkDedupe (view : ℕ) (leader : ValidatorId) (blockHash : BlockHash)
  | enterView (view : ℕ)
  | release (childHash parentHash : BlockHash)
  | receive (signed : Signed Proposal) (rest : List BlockHash)
  | vote (variant : VoteVariant)
  | newView (signed : Signed NewView)
  | retry (parentHash : BlockHash)
  | tick (parentHash : BlockHash)
  | announce (view : ℕ)
  | insert (block : Block)

namespace HotStuffCore

def outcome (P : Primitives) (c : HotStuffCore) : StepInput → HotStuffCore × List Action
  | .event order event => c.step P order event
  | .insertPendingBlock block => (c.insertPendingBlock P block, [])
  | .blockSyncRetryTick => c.stepBlockSyncRetryTick

/-- A parked proposal is taken out, and its parent is asked for no longer. -/
def releaseParked (c : HotStuffCore) (childHash parentHash : BlockHash) : HotStuffCore :=
  { c with
    parkedProposals := c.parkedProposals.erase childHash
    blockSyncInflight := c.blockSyncInflight.erase parentHash }

def move (P : Primitives) (c : HotStuffCore) : SyncMove → HotStuffCore × List Action
  | .checkDedupe view leader blockHash => c.checkProposalDedupe view leader blockHash
  | .enterView view => (c.enterView view, [])
  | .release childHash parentHash => (c.releaseParked childHash parentHash, [])
  | .receive signed _ => c.onProposalReceived P signed
  | .vote variant => c.onVoteReceived P variant
  | .newView signed => c.onNewViewReceived signed
  | .retry parentHash => c.runBlockSyncRetryForParent parentHash
  | .tick parentHash => c.runBlockSyncRetryTickForParent parentHash
  | .announce view => (c, c.newViewActions ++ c.tryProposeAsLeader view)
  | .insert block => (c.insertPendingBlock P block, [])

def follow (P : Primitives) (c : HotStuffCore) (m : SyncMove) : HotStuffCore := (c.move P m).1

/-- The actions of all moves, in order. -/
def emitted (P : Primitives) : HotStuffCore → List SyncMove → List Action
  | _, [] => []
  | c, m :: ms => (c.move P m).2 ++ emitted P (c.follow P m) ms

def resumeMoves (P : Primitives) : HotStuffCore → List BlockHash → List SyncMove
  | _, [] => []
  | c, h :: hs =>
    ((c.parkedProposals.get? h).elim [] fun signed =>
      [.release h signed.payload.block.header.parentHash, .receive signed hs]) ++
      resumeMoves P (c.resumeParked P h).1 hs

/-- The moves of a step, in order. -/
def moves (P : Primitives) (c : HotStuffCore) : StepInput → List SyncMove
  | .event _ (.proposalReceived verified) =>
    let block := verified.value.payload.block
    [.checkDedupe block.header.view verified.signerValidatorId (block.hash P),
      .receive verified.value []]
  | .event _ (.voteReceived variant) => [.vote variant]
  | .event _ (.newViewReceived verified) => [.newView verified.value]
  | .event order (.pacemakerAdvance v) =>
    let c := c.enterView v
    let ready := order.apply c.readyParked
    let resumed := (forHashes (resumeParked P) c ready).1
    .enterView v :: (resumeMoves P c ready ++
      (resumed.parentHashesToRetry.map .retry ++ [.announce v]))
  | .insertPendingBlock block => [.insert block]
  | .blockSyncRetryTick => (sortedSet c.blockSyncInflight.keys).map .tick

variable {P : Primitives} {c : HotStuffCore}

/-- The core after the moves and their actions. -/
def moveAll (P : Primitives) (c : HotStuffCore) (ms : List SyncMove) :
    HotStuffCore × List Action := (run (follow P) c ms, emitted P c ms)

theorem moveAll_append (ms ms' : List SyncMove) : moveAll P c (ms ++ ms') =
    ((moveAll P (moveAll P c ms).1 ms').1,
      (moveAll P c ms).2 ++ (moveAll P (moveAll P c ms).1 ms').2) := by
  induction ms generalizing c with
  | nil => rfl
  | cons m ms ih =>
    have hrest := ih (c := c.follow P m)
    have hstate := congrArg Prod.fst hrest
    have hactions := congrArg Prod.snd hrest
    simp only [moveAll] at hstate hactions
    rw [List.cons_append]
    unfold moveAll
    rw [run_cons, run_cons, hstate, emitted, emitted, hactions, List.append_assoc]

/-- A loop over hashes whose rounds are moves. -/
theorem moveAll_map {f : HotStuffCore → BlockHash → HotStuffCore × List Action}
    {g : BlockHash → SyncMove} (hf : ∀ c h, c.move P (g h) = f c h) (c : HotStuffCore)
    (hs : List BlockHash) : moveAll P c (hs.map g) = forHashes f c hs := by
  induction hs generalizing c with
  | nil => rfl
  | cons h hs ih =>
    have hrest := ih (c.follow P (g h))
    have hstate := congrArg Prod.fst hrest
    have hactions := congrArg Prod.snd hrest
    have hround : c.follow P (g h) = (f c h).1 := by rw [follow, hf]
    simp only [moveAll, hround] at hstate hactions
    unfold moveAll
    rw [List.map_cons, run_cons, hround, hstate, emitted, hround, hactions, hf]
    rfl

theorem moveAll_release {childHash : BlockHash} {signed : Signed Proposal}
    (h : c.parkedProposals.get? childHash = some signed) (rest : List BlockHash) :
    moveAll P c [.release childHash signed.payload.block.header.parentHash,
      .receive signed rest] = c.resumeParked P childHash := by
  have hactions : emitted P c [.release childHash signed.payload.block.header.parentHash,
      .receive signed rest] = ((c.releaseParked childHash
        signed.payload.block.header.parentHash).onProposalReceived P signed).2 := by
    simp [emitted, move, follow]
  unfold moveAll resumeParked
  rw [hactions, h]
  rfl

theorem moveAll_resumeMoves (hs : List BlockHash) :
    moveAll P c (resumeMoves P c hs) = forHashes (resumeParked P) c hs := by
  induction hs generalizing c with
  | nil => rfl
  | cons h hs ih =>
    rw [resumeMoves, forHashes]
    cases hget : c.parkedProposals.get? h with
    | none =>
      have hidle : c.resumeParked P h = (c, []) := by
        unfold resumeParked
        rw [hget]
      simp only [Option.elim_none, List.nil_append, hidle]
      exact ih
    | some signed =>
      simp only [Option.elim_some]
      rw [moveAll_append, moveAll_release hget hs, ih]

/-- A step is what its moves do, one after the other. -/
theorem moveAll_moves (P : Primitives) (c : HotStuffCore) (input : StepInput) :
    moveAll P c (c.moves P input) = c.outcome P input := by
  cases input with
  | event order event =>
    cases event with
    | proposalReceived verified =>
      unfold moveAll moves
      simp only [emitted, List.append_nil]
      rfl
    | voteReceived variant =>
      unfold moveAll moves
      simp only [emitted, List.append_nil]
      rfl
    | newViewReceived verified =>
      unfold moveAll moves
      simp only [emitted, List.append_nil]
      rfl
    | pacemakerAdvance v =>
      have hretried := moveAll_map (P := P) (g := .retry) (f := runBlockSyncRetryForParent)
        fun _ _ => rfl
      have hannounced : ∀ c' : HotStuffCore, moveAll P c' [.announce v] =
          (c', c'.newViewActions ++ c'.tryProposeAsLeader v) := by
        intro c'
        unfold moveAll
        rw [emitted, emitted, List.append_nil]
        rfl
      show moveAll P (c.enterView v) _ = c.onPacemakerAdvance P order v
      rw [moveAll_append, moveAll_append, moveAll_resumeMoves, hretried, hannounced]
      unfold onPacemakerAdvance
      simp only [List.append_assoc]
  | insertPendingBlock block =>
    unfold moveAll moves
    simp only [emitted, List.append_nil]
    rfl
  | blockSyncRetryTick => exact moveAll_map (fun _ _ => rfl) c _

/-- The core after a step. -/
def advance (P : Primitives) (c : HotStuffCore) (input : StepInput) : HotStuffCore :=
  (c.outcome P input).1

/-- The moves of a run. -/
def trail (P : Primitives) : HotStuffCore → List StepInput → List SyncMove
  | _, [] => []
  | c, input :: inputs => c.moves P input ++ trail P (c.advance P input) inputs

theorem run_moves (input : StepInput) : run (follow P) c (c.moves P input) = c.advance P input :=
  congrArg Prod.fst (moveAll_moves P c input)

theorem run_trail (inputs : List StepInput) :
    run (follow P) c (c.trail P inputs) = run (advance P) c inputs := by
  induction inputs generalizing c with
  | nil => rfl
  | cons input inputs ih => rw [trail, run_append, run_moves, run_cons, ih]

end HotStuffCore

end Boule
