import Boule.HotStuff.Accept

/-! `HotStuffCore`: the replica state with its caches, and `step` over all events. -/
namespace Boule

structure BlockSyncInflight where
  originalSender : NodeId
  attempts : ℕ
  lastAskedView : ℕ
  expectedHeight : ℕ
  deriving DecidableEq

structure HotStuffCore where
  selfId : NodeId
  state : HotStuffState
  voteBucket : Table (ℕ × BlockHash) QuorumCertificate
  voteDedupe : Table (ℕ × ValidatorId) BlockHash
  proposalDedupe : Table (ℕ × ValidatorId) BlockHash
  parkedProposals : Table BlockHash (Signed Proposal)
  blockSyncInflight : Table BlockHash BlockSyncInflight
  proposedInView : ℕ
  limits : CacheLimits
  deriving DecidableEq

/-- The order in which a hash map happens to yield its keys. -/
structure IterOrder where
  apply : List BlockHash → List BlockHash
  perm : ∀ l, (apply l).Perm l

/-- `none` stands for the panic on an empty set. -/
def roundRobinLeader (vs : ValidatorSet) (view : ℕ) : Option NodeId := vs.get? (view % vs.len)

def blockSyncBackoffViews (attempts initial max : ℕ) : ℕ :=
  if attempts = 0 || initial = 0 then 0
  else
    let shift := min (attempts - 1) 63
    min (initial * 2 ^ shift % 2 ^ 64) max

def pickBlockSyncPeer (originalSender : NodeId) (attempts perPeerAttempts : ℕ)
    (validatorSet : ValidatorSet) (selfId : NodeId) : NodeId :=
  let perPeer := max perPeerAttempts 1
  let nextAttempt := saturatingAddU32 attempts 1
  let round := (nextAttempt - 1) / perPeer
  if round = 0 then originalSender
  else
    let len := validatorSet.len
    if len = 0 then originalSender
    else
      let senderIdx := (validatorSet.indexOf originalSender).getD 0
      let ring := ((List.range len).filterMap fun offset =>
        validatorSet.get? ((senderIdx + (offset + 1)) % len)).filter (· ≠ selfId)
      ring.getD ((round - 1) % ring.length) originalSender

namespace HotStuffCore

def withLimits (selfId : NodeId) (state : HotStuffState) (limits : CacheLimits) : HotStuffCore where
  selfId := selfId
  state := state.setPendingBlocksLimit limits.pendingBlocksCapacity
  voteBucket := ∅
  voteDedupe := ∅
  proposalDedupe := ∅
  parkedProposals := ∅
  blockSyncInflight := ∅
  proposedInView := 0
  limits := limits

def new (selfId : NodeId) (state : HotStuffState) : HotStuffCore :=
  withLimits selfId state .unboundedForTests

def withProposedInView (c : HotStuffCore) (view : ℕ) : HotStuffCore :=
  { c with proposedInView := view }

def setHighQc (c : HotStuffCore) (qc : QuorumCertificate) : HotStuffCore :=
  { c with state := { c.state with highQc := some qc } }

/-! ### Eviction -/

def dropParkedForParent (c : HotStuffCore) (parentHash : BlockHash) : HotStuffCore :=
  { c with
    parkedProposals := c.parkedProposals.retain
      fun _ signed => signed.payload.block.header.parentHash ≠ parentHash
    blockSyncInflight := c.blockSyncInflight.erase parentHash }

def evictVoteBucketsBelow (c : HotStuffCore) (gcBelow : ℕ) : HotStuffCore :=
  { c with
    voteBucket := c.voteBucket.retain fun k _ => gcBelow ≤ k.1
    voteDedupe := c.voteDedupe.retain fun k _ => gcBelow ≤ k.1
    proposalDedupe := c.proposalDedupe.retain fun k _ => gcBelow ≤ k.1 }

def evictVoteBucketsToFitOne (c : HotStuffCore) : HotStuffCore :=
  if c.voteBucket.size < c.limits.voteBucketCapacity then c
  else
    match c.voteBucket.minBy fun k _ => toLex k with
    | none => c
    | some (victimKey, _) => { c with voteBucket := c.voteBucket.erase victimKey }

def evictParkedToFitOne (c : HotStuffCore) : HotStuffCore :=
  if c.parkedProposals.size < c.limits.parkedProposalsCapacity then c
  else
    match c.parkedProposals.minBy
        fun hash signed => toLex (signed.payload.block.header.view, hash) with
    | none => c
    | some (victimHash, _) => { c with parkedProposals := c.parkedProposals.erase victimHash }

/-! ### Block sync -/

def askAgain (c : HotStuffCore) (parentHash : BlockHash) (snapshot : BlockSyncInflight)
    (reason : BlockSyncReason) : HotStuffCore × List Action :=
  let peer := pickBlockSyncPeer snapshot.originalSender snapshot.attempts
    c.limits.blockSyncPerPeerAttempts c.state.validatorSet c.selfId
  let entry := { snapshot with
    attempts := saturatingAddU32 snapshot.attempts 1
    lastAskedView := c.state.currentView }
  ({ c with blockSyncInflight := c.blockSyncInflight.insert parentHash entry },
    [.requestBlock parentHash peer snapshot.expectedHeight reason])

def tryEmitBlockSyncRetry (c : HotStuffCore) (parentHash : BlockHash) (originalSender : NodeId)
    (expectedHeight : ℕ) (reason : BlockSyncReason) : HotStuffCore × List Action :=
  match c.blockSyncInflight.get? parentHash with
  | none =>
    let entry : BlockSyncInflight := ⟨originalSender, 1, c.state.currentView, expectedHeight⟩
    ({ c with blockSyncInflight := c.blockSyncInflight.insert parentHash entry },
      [.requestBlock parentHash originalSender expectedHeight reason])
  | some snapshot =>
    if c.limits.blockSyncMaxAttempts ≤ snapshot.attempts then (c, [])
    else
      let backoff := blockSyncBackoffViews snapshot.attempts
        c.limits.blockSyncInitialBackoffViews c.limits.blockSyncMaxBackoffViews
      if c.state.currentView - snapshot.lastAskedView < backoff then (c, [])
      else c.askAgain parentHash snapshot reason

def runBlockSyncRetryTickForParent (c : HotStuffCore) (parentHash : BlockHash) :
    HotStuffCore × List Action :=
  match c.blockSyncInflight.get? parentHash with
  | none => (c, [])
  | some snapshot =>
    if c.limits.blockSyncMaxAttempts ≤ snapshot.attempts then
      (c.dropParkedForParent parentHash, [])
    else c.askAgain parentHash snapshot .retryTimerTick

def runBlockSyncRetryForParent (c : HotStuffCore) (parentHash : BlockHash) :
    HotStuffCore × List Action :=
  match c.blockSyncInflight.get? parentHash with
  | none => (c, [])
  | some snapshot =>
    if c.limits.blockSyncMaxAttempts ≤ snapshot.attempts then
      (c.dropParkedForParent parentHash, [])
    else
      c.tryEmitBlockSyncRetry parentHash snapshot.originalSender snapshot.expectedHeight
        .stillParkedOnPacemakerAdvance

/-- A loop over hashes that collects the actions of each round. -/
def forHashes (f : HotStuffCore → BlockHash → HotStuffCore × List Action) :
    HotStuffCore → List BlockHash → HotStuffCore × List Action
  | c, [] => (c, [])
  | c, h :: hs =>
    let (c, actions) := f c h
    let (c, rest) := forHashes f c hs
    (c, actions ++ rest)

def stepBlockSyncRetryTick (c : HotStuffCore) : HotStuffCore × List Action :=
  forHashes runBlockSyncRetryTickForParent c (sortedSet c.blockSyncInflight.keys)

/-! ### Proposing -/

def buildProposalAtView (c : HotStuffCore) (view : ℕ) : List Action :=
  if view ≤ c.proposedInView then []
  else
    match c.state.highQc with
    | none => []
    | some highQc =>
      match c.state.pendingBlocks.get? highQc.blockHash with
      | none => []
      | some parent => [.buildProposal view highQc parent]

def becomeLeader (c : HotStuffCore) (view : ℕ) : List Action := c.buildProposalAtView view

def proposalBuilt (c : HotStuffCore) (view : ℕ) (block : Block) (highQc : QuorumCertificate) :
    HotStuffCore × List Action :=
  ({ c with proposedInView := view },
    [.persist (.proposedInView view), .broadcast (.proposal ⟨block, highQc⟩)])

def tryProposeAsLeader (c : HotStuffCore) (view : ℕ) : List Action :=
  if roundRobinLeader (c.state.validatorHistory.setAt view) view ≠ some c.selfId then []
  else c.buildProposalAtView view

/-! ### Handlers -/

def checkProposalDedupe (c : HotStuffCore) (view : ℕ) (leader : ValidatorId)
    (blockHash : BlockHash) : HotStuffCore × List Action :=
  match c.proposalDedupe.get? (view, leader) with
  | none => ({ c with proposalDedupe := c.proposalDedupe.insert (view, leader) blockHash }, [])
  | some blockA =>
    if blockA = blockHash then (c, [])
    else (c, [.proposalEquivocationEvidence leader view blockA blockHash])

def insertParked (P : Primitives) (c : HotStuffCore) (signed : Signed Proposal) : HotStuffCore :=
  let childHash := signed.payload.block.hash P
  let c := if c.parkedProposals.containsKey childHash then c else c.evictParkedToFitOne
  { c with parkedProposals := c.parkedProposals.insert childHash signed }

/-- The branch of `on_proposal_received` for an unknown parent. -/
def parkProposal (P : Primitives) (c : HotStuffCore) (signed : Signed Proposal) :
    HotStuffCore × List Action :=
  let header := signed.payload.block.header
  (c.insertParked P signed).tryEmitBlockSyncRetry header.parentHash signed.signer
    (header.height - 1) .unknownParentOnProposal

def onProposalReceived (P : Primitives) (c : HotStuffCore) (signed : Signed Proposal) :
    HotStuffCore × List Action :=
  let block := signed.payload.block
  if !c.state.pendingBlocks.containsKey block.header.parentHash then c.parkProposal P signed
  else
    let (state, actions) := c.state.acceptProposal P signed.payload
    ({ c with
        state := state
        blockSyncInflight := c.blockSyncInflight.erase (block.hash P) }, actions)

/-- Adds the partial to the bucket of the vote's view and hash; the certificate is returned
when this vote completes its quorum. -/
def addToBucket (P : Primitives) (c : HotStuffCore) (vote : Vote) (vs : ValidatorSet)
    (voterIdx : ℕ) (bls : BlsPartialSig) : HotStuffCore × Option QuorumCertificate :=
  let key := (vote.view, vote.blockHash)
  let c := if c.voteBucket.containsKey key then c else c.evictVoteBucketsToFitOne
  let qc := (c.voteBucket.get? key).getD (.new vote.view vote.blockHash vs.len)
  let hadQuorum := qc.hasQuorum vs
  let qc := qc.addBlsPartial P voterIdx bls
  let c := { c with voteBucket := c.voteBucket.insert key qc }
  (c, if hadQuorum || !qc.hasQuorum vs then none else some qc)

/-- Up to the certificate: look the voter up, check the dedupe table, fill the bucket. -/
def recordVote (P : Primitives) (c : HotStuffCore) (variant : VoteVariant) :
    HotStuffCore × List Action × Option QuorumCertificate :=
  let vote := variant.signed.value.payload
  let voterId := variant.signed.signerValidatorId
  let vs := c.state.validatorHistory.setAt vote.view
  match vs.indexOf voterId with
  | none => (c, [], none)
  | some voterIdx =>
    match c.voteDedupe.get? (vote.view, voterId) with
    | none =>
      let c := { c with
        voteDedupe := c.voteDedupe.insert (vote.view, voterId) vote.blockHash }
      let (c, formed) := c.addToBucket P vote vs voterIdx variant.bls
      (c, [], formed)
    | some blockA =>
      if blockA = vote.blockHash then
        let (c, formed) := c.addToBucket P vote vs voterIdx variant.bls
        (c, [], formed)
      else (c, [.equivocationEvidence voterId vote.view blockA vote.blockHash], none)

def adoptFormed (c : HotStuffCore) (formed : QuorumCertificate) : HotStuffCore × List Action :=
  if shouldUpdateHighQc formed c.state then
    (c.setHighQc formed, [.persist (.highQc formed)])
  else (c, [])

def onVoteReceived (P : Primitives) (c : HotStuffCore) (variant : VoteVariant) :
    HotStuffCore × List Action :=
  let nextView := addU64 variant.signed.value.payload.view 1
  match c.recordVote P variant with
  | (c, actions, none) => (c, actions)
  | (c, actions, some formed) =>
    let (c, adopted) := c.adoptFormed formed
    (c, actions ++ adopted ++ c.tryProposeAsLeader nextView)

def onNewViewReceived (c : HotStuffCore) (signed : Signed NewView) :
    HotStuffCore × List Action :=
  let qc := signed.payload.highQc
  if !shouldUpdateHighQc qc c.state then (c, [])
  else
    let c := c.setHighQc qc
    let (c, sync) :=
      if c.state.pendingBlocks.containsKey qc.blockHash then (c, [])
      else c.tryEmitBlockSyncRetry qc.blockHash signed.signer 0 .unknownHighQcOnNewView
    (c, .persist (.highQc qc) :: sync)

/-- The head of `on_pacemaker_advance`: enter the view and drop what is below it. -/
def enterView (c : HotStuffCore) (v : ℕ) : HotStuffCore :=
  let active := c.state.validatorHistory.setAt v
  evictVoteBucketsBelow { c with state := { c.state with
    currentView := v
    validatorSet := active } } v

def readyParked (c : HotStuffCore) : List BlockHash :=
  (c.parkedProposals.retain fun _ signed =>
    c.state.pendingBlocks.containsKey signed.payload.block.header.parentHash).keys

def resumeParked (P : Primitives) (c : HotStuffCore) (childHash : BlockHash) :
    HotStuffCore × List Action :=
  match c.parkedProposals.get? childHash with
  | none => (c, [])
  | some signed =>
    onProposalReceived P { c with
      parkedProposals := c.parkedProposals.erase childHash
      blockSyncInflight := c.blockSyncInflight.erase signed.payload.block.header.parentHash } signed

def parentHashesToRetry (c : HotStuffCore) : List BlockHash :=
  let parents := c.parkedProposals.toList.map fun e => e.2.payload.block.header.parentHash
  let missing := ((c.state.highQc.map QuorumCertificate.blockHash).filter
    fun h => !c.state.pendingBlocks.containsKey h).toList
  sortedSet (parents ++ missing)

def newViewActions (c : HotStuffCore) : List Action :=
  (c.state.highQc.map fun qc => .broadcast (.newView ⟨qc⟩)).toList

def onPacemakerAdvance (P : Primitives) (order : IterOrder) (c : HotStuffCore) (v : ℕ) :
    HotStuffCore × List Action :=
  let c := c.enterView v
  let (c, resumed) := forHashes (resumeParked P) c (order.apply c.readyParked)
  let (c, retried) := forHashes runBlockSyncRetryForParent c c.parentHashesToRetry
  (c, resumed ++ retried ++ c.newViewActions ++ c.tryProposeAsLeader v)

def step (P : Primitives) (order : IterOrder) (c : HotStuffCore) (event : Event) :
    HotStuffCore × List Action :=
  match event with
  | .proposalReceived verified =>
    let signed := verified.value
    let block := signed.payload.block
    let (c, evidence) :=
      c.checkProposalDedupe block.header.view verified.signerValidatorId (block.hash P)
    let (c, actions) := c.onProposalReceived P signed
    (c, evidence ++ actions)
  | .voteReceived variant => c.onVoteReceived P variant
  | .newViewReceived verified => c.onNewViewReceived verified.value
  | .pacemakerAdvance v => c.onPacemakerAdvance P order v

/-- A step, for the order in which its hash map happens to be read. -/
def next (P : Primitives) (c : HotStuffCore) (input : IterOrder × Event) : HotStuffCore :=
  (c.step P input.1 input.2).1

/-! ### The other entry points -/

def insertValidatorBoundary (c : HotStuffCore) (vEff : ℕ) (set : ValidatorSet) :
    Except ℕ HotStuffCore := do
  let history ← c.state.validatorHistory.insertBoundary vEff set
  return { c with state := { c.state with
    validatorHistory := history
    validatorSet := if vEff ≤ c.state.currentView then set else c.state.validatorSet } }

def insertPendingBlock (P : Primitives) (c : HotStuffCore) (block : Block) : HotStuffCore :=
  { c with
    state := c.state.insertPending P block
    blockSyncInflight := c.blockSyncInflight.erase (block.hash P) }

def adoptSnapshot (P : Primitives) (c : HotStuffCore) (snapshotBlock : Block)
    (commitQc : QuorumCertificate) (snapshotView : ℕ) : HotStuffCore × List Action :=
  let locked : Locked := ⟨snapshotView, snapshotBlock.header.height, snapshotBlock.hash P⟩
  let state := c.state.insertPending P snapshotBlock
  let lastVotedView :=
    if state.lastVotedView < snapshotView then snapshotView else state.lastVotedView
  ({ c with state := { state with
      locked := some locked
      highQc := some commitQc
      lastVotedView := lastVotedView } },
    [.persist (.votedInView snapshotView), .persist (.locked locked), .persist (.highQc commitQc)])

end HotStuffCore

end Boule
