import Boule.Lib.Run
import Boule.Snapshot

/-! `SnapshotSync`: how a node that lags behind fetches a snapshot from its peers. -/
namespace Boule

def maxConcurrentChunkRequests : ℕ := 4

def perPeerChunkConcurrency : ℕ := 2

def perChunkRetryBudget : ℕ := 3

structure SnapshotPolicy where
  intervalBlocks : ℕ
  retentionCount : ℕ
  chunkSizeBytes : ℕ
  deriving DecidableEq

namespace SnapshotPolicy

def isEnabled (policy : SnapshotPolicy) : Bool := 0 < policy.intervalBlocks

def shouldSnapshotAt (policy : SnapshotPolicy) (committedHeight : ℕ) : Bool :=
  policy.isEnabled && 0 < committedHeight && committedHeight % policy.intervalBlocks = 0

end SnapshotPolicy

inductive ChunkStatus where
  | pending
  | inFlight (peer : NodeId)
  | received (payload : Bytes)
  deriving DecidableEq

structure ChunkSlot where
  status : ChunkStatus
  tried : List NodeId
  attempts : ℕ
  deriving DecidableEq

inductive AbortReason where
  | peerHasNoSnapshot
  | manifestVerifyFailed (e : ManifestError)
  | chunkRetryBudgetExhausted (chunkIdx attempts : ℕ)
  | candidatesExhausted
  deriving DecidableEq

inductive SnapshotSyncAction where
  | sendManifestRequest (peer : NodeId)
  | sendChunkRequest (peer : NodeId) (height chunkIdx : ℕ)
  | restore (manifest : SnapshotManifest) (payload : Bytes)
  | abort (reason : AbortReason)
  deriving DecidableEq

/-- The fields of `State::Fetching`. -/
structure Fetch where
  manifest : SnapshotManifest
  candidates : List NodeId
  inFlightPerPeer : Table NodeId ℕ
  chunks : List ChunkSlot
  deriving DecidableEq

inductive SyncState where
  | idle (observedPeers : List NodeId)
  | manifestPending (primaryPeer : NodeId) (observedPeers : List NodeId)
  | fetching (f : Fetch)
  | done
  | aborted
  deriving DecidableEq

namespace ChunkSlot

def fresh : ChunkSlot := ⟨.pending, [], 0⟩

/-- The request to `peer` has failed. -/
def fail (slot : ChunkSlot) (peer : NodeId) : ChunkSlot :=
  ⟨.pending, peer :: slot.tried, slot.attempts + 1⟩

def received? (slot : ChunkSlot) : Option Bytes :=
  match slot.status with
  | .received payload => some payload
  | _ => none

end ChunkSlot

namespace Fetch

def setSlot (f : Fetch) (idx : ℕ) (slot : ChunkSlot) : Fetch :=
  { f with chunks := f.chunks.set idx slot }

/-- The first pending chunk that a candidate may still be asked for, with that candidate. -/
def nextRequest (f : Fetch) : Option (ℕ × NodeId) :=
  f.chunks.zipIdx.findSome? fun e =>
    if e.1.status ≠ .pending then none
    else
      (f.candidates.find? fun peer => peer ∉ e.1.tried &&
        (f.inFlightPerPeer.get? peer).getD 0 < perPeerChunkConcurrency).map fun peer => (e.2, peer)

/-- The request for a chunk is on its way. -/
def request (f : Fetch) (idx : ℕ) (peer : NodeId) : Fetch :=
  { f with
    chunks := f.chunks.modify idx fun slot => { slot with status := .inFlight peer }
    inFlightPerPeer :=
      f.inFlightPerPeer.insert peer ((f.inFlightPerPeer.get? peer).getD 0 + 1) }

/-- At most `n` rounds of the scheduling loop. -/
def scheduleRounds : ℕ → Fetch → Fetch × List SnapshotSyncAction
  | 0, f => (f, [])
  | n + 1, f =>
    if maxConcurrentChunkRequests ≤ (f.inFlightPerPeer.toList.map Prod.snd).sum then (f, [])
    else
      match f.nextRequest with
      | none => (f, [])
      | some (idx, peer) =>
        let (g, rest) := scheduleRounds n (f.request idx peer)
        (g, .sendChunkRequest peer f.manifest.height idx :: rest)

/-- Every round adds a request in flight, so their bound is a bound on the rounds. -/
def schedule (f : Fetch) : Fetch × List SnapshotSyncAction :=
  f.scheduleRounds maxConcurrentChunkRequests

def scheduleOrAbort (f : Fetch) : SyncState × List SnapshotSyncAction :=
  let (g, actions) := f.schedule
  let anyInFlight := g.chunks.any fun c => c.status matches .inFlight _
  let anyPending := g.chunks.any fun c => c.status = .pending
  if !anyInFlight && anyPending && actions.isEmpty then
    (.aborted, [.abort .candidatesExhausted])
  else (.fetching g, actions)

def checkChunkAbort (slot : ChunkSlot) (chunkIdx : ℕ) (candidates : List NodeId) :
    Option AbortReason :=
  if perChunkRetryBudget ≤ slot.attempts then
    some (.chunkRetryBudgetExhausted chunkIdx slot.attempts)
  else if candidates.isEmpty then some .candidatesExhausted
  else if candidates.all fun c => c ∈ slot.tried then
    some (.chunkRetryBudgetExhausted chunkIdx slot.attempts)
  else none

/-- After a failed request: give up on the chunk, or go on. -/
def retry (f : Fetch) (slot : ChunkSlot) (chunkIdx : ℕ) : SyncState × List SnapshotSyncAction :=
  match checkChunkAbort slot chunkIdx f.candidates with
  | some reason => (.aborted, [.abort reason])
  | none => f.scheduleOrAbort

/-- `assemble_chunks` -/
def payload (f : Fetch) : Bytes := (f.chunks.filterMap ChunkSlot.received?).flatten

def tryFinishOrSchedule (f : Fetch) : SyncState × List SnapshotSyncAction :=
  if f.chunks.all fun c => c.received?.isSome then (.done, [.restore f.manifest f.payload])
  else f.scheduleOrAbort

/-- One request less is in flight to the peer. -/
def release (f : Fetch) (peer : NodeId) : Fetch :=
  { f with inFlightPerPeer :=
      match f.inFlightPerPeer.get? peer with
      | none => f.inFlightPerPeer
      | some c => f.inFlightPerPeer.insert peer (c - 1) }

/-- A peer that sends a wrong chunk is not asked again. -/
def takeChunk (sha256 : Bytes → Bytes32) (f : Fetch) (slot : ChunkSlot) (sender : NodeId)
    (chunkIdx : ℕ) : Option Bytes → SyncState × List SnapshotSyncAction
  | none => (f.setSlot chunkIdx (slot.fail sender)).retry (slot.fail sender) chunkIdx
  | some p =>
    match f.manifest.verifyChunk sha256 chunkIdx p with
    | .ok () => (f.setSlot chunkIdx { slot with status := .received p }).tryFinishOrSchedule
    | .error _ =>
      { f.setSlot chunkIdx (slot.fail sender) with
        candidates := f.candidates.filter (· ≠ sender)
        inFlightPerPeer := f.inFlightPerPeer.erase sender }.retry (slot.fail sender) chunkIdx

def onChunkResponse (sha256 : Bytes → Bytes32) (f : Fetch) (sender : NodeId)
    (height chunkIdx : ℕ) (payload : Option Bytes) : SyncState × List SnapshotSyncAction :=
  if height ≠ f.manifest.height then (.fetching f, [])
  else
    match f.chunks[chunkIdx]? with
    | none => (.fetching f, [])
    | some slot =>
      if slot.status ≠ .inFlight sender then (.fetching f, [])
      else (f.release sender).takeChunk sha256 slot sender chunkIdx payload

/-- The chunks that the peer was asked for, one after the other, up to one that is given up. -/
def dropPeerFrom (peer : NodeId) : List (ChunkSlot × ℕ) → Fetch → Fetch × Option AbortReason
  | [], f => (f, none)
  | (slot, idx) :: rest, f =>
    if slot.status ≠ .inFlight peer then dropPeerFrom peer rest f
    else
      let f := f.setSlot idx (slot.fail peer)
      match checkChunkAbort (slot.fail peer) idx f.candidates with
      | some reason => (f, some reason)
      | none => dropPeerFrom peer rest f

def onPeerDisconnected (f : Fetch) (peer : NodeId) : SyncState × List SnapshotSyncAction :=
  if peer ∉ f.candidates then (.fetching f, [])
  else
    let f := { f with
      candidates := f.candidates.filter (· ≠ peer)
      inFlightPerPeer := f.inFlightPerPeer.erase peer }
    match f.dropPeerFrom peer f.chunks.zipIdx with
    | (_, some reason) => (.aborted, [.abort reason])
    | (f, none) => f.scheduleOrAbort

def addCandidate (f : Fetch) (peer : NodeId) : SyncState × List SnapshotSyncAction :=
  let f :=
    if peer ∈ f.candidates then f
    else
      { f with
        candidates := f.candidates ++ [peer]
        inFlightPerPeer :=
          if f.inFlightPerPeer.containsKey peer then f.inFlightPerPeer
          else f.inFlightPerPeer.insert peer 0 }
  let (f, actions) := f.schedule
  (.fetching f, actions)

/-- The fetch that an accepted manifest starts. -/
def start (manifest : SnapshotManifest) (peers : List NodeId) : Fetch where
  manifest := manifest
  candidates := sortedSet peers
  inFlightPerPeer := (sortedSet peers).foldl (fun t p => t.insert p 0) ∅
  chunks := List.replicate manifest.chunkCount .fresh

end Fetch

inductive SyncInput where
  | observeProposal (lastCommittedHeight proposalHeight : ℕ) (proposer : NodeId)
  | addCandidate (peer : NodeId)
  | manifestResponse (sender : NodeId) (manifest : Option SnapshotManifest)
  | chunkResponse (sender : NodeId) (height chunkIdx : ℕ) (payload : Option Bytes)
  | peerDisconnected (peer : NodeId)

namespace SyncState

def new : SyncState := .idle []

section
variable (P : Primitives) (R : HistoryPrimitives) (sha256 : Bytes → Bytes32)
  (policy : SnapshotPolicy) (validatorSet : ValidatorSet)

def observeProposal (s : SyncState) (lastCommittedHeight proposalHeight : ℕ)
    (proposer : NodeId) : SyncState × List SnapshotSyncAction :=
  if !policy.isEnabled || !validatorSet.contains proposer then (s, [])
  else
    match s with
    | .idle observed =>
      if proposalHeight < lastCommittedHeight ||
          proposalHeight - lastCommittedHeight < policy.intervalBlocks then
        (.idle (observed.insert proposer), [])
      else (.manifestPending proposer (observed.insert proposer), [.sendManifestRequest proposer])
    | .manifestPending primary observed =>
      (.manifestPending primary (observed.insert proposer), [])
    | .fetching f => f.addCandidate proposer
    | s => (s, [])

def onManifestResponse (s : SyncState) (sender : NodeId) (manifest : Option SnapshotManifest) :
    SyncState × List SnapshotSyncAction :=
  match s with
  | .manifestPending primary observed =>
    if sender ≠ primary then (s, [])
    else
      match manifest with
      | none => (.aborted, [.abort .peerHasNoSnapshot])
      | some m =>
        match m.verify P R validatorSet with
        | .error e => (.aborted, [.abort (.manifestVerifyFailed e)])
        | .ok () =>
          let (f, actions) := (Fetch.start m (observed.insert primary)).schedule
          (.fetching f, actions)
  | s => (s, [])

def onPeerDisconnected (s : SyncState) (peer : NodeId) : SyncState × List SnapshotSyncAction :=
  match s with
  | .idle observed => (.idle (observed.erase peer), [])
  | .manifestPending primary observed =>
    if primary = peer then (.aborted, [.abort .candidatesExhausted])
    else (.manifestPending primary (observed.erase peer), [])
  | .fetching f => f.onPeerDisconnected peer
  | s => (s, [])

/-- The node passes its own `validator_set`, which only a restore replaces. -/
def step (s : SyncState) : SyncInput → SyncState × List SnapshotSyncAction
  | .observeProposal committed height proposer =>
    s.observeProposal policy validatorSet committed height proposer
  | .addCandidate peer =>
    match s with
    | .fetching f => f.addCandidate peer
    | s => (s, [])
  | .manifestResponse sender manifest => s.onManifestResponse P R validatorSet sender manifest
  | .chunkResponse sender height chunkIdx payload =>
    match s with
    | .fetching f => f.onChunkResponse sha256 sender height chunkIdx payload
    | s => (s, [])
  | .peerDisconnected peer => s.onPeerDisconnected peer

/-- What a run asks the node to do. -/
def actions : SyncState → List SyncInput → List SnapshotSyncAction
  | _, [] => []
  | s, input :: inputs =>
    let (s, first) := s.step P R sha256 policy validatorSet input
    first ++ actions s inputs

end

end SyncState

/-! ### What a restore has been through -/

section
variable (P : Primitives) (R : HistoryPrimitives) (sha256 : Bytes → Bytes32)
  (validatorSet : ValidatorSet)

/-- The manifest is verified, and so is every chunk that has been received. -/
structure Fetch.Checked (f : Fetch) : Prop where
  manifest : f.manifest.verify P R validatorSet = .ok ()
  length : f.chunks.length = f.manifest.chunkCount
  received : ∀ i slot p, f.chunks[i]? = some slot → slot.status = .received p →
    f.manifest.verifyChunk sha256 i p = .ok ()

def SyncState.Checked : SyncState → Prop
  | .fetching f => f.Checked P R sha256 validatorSet
  | _ => True

/-- A restore is of a verified manifest and of chunks that have its hashes. -/
def SnapshotSyncAction.Checked : SnapshotSyncAction → Prop
  | .restore m payload => m.verify P R validatorSet = .ok () ∧
      ∃ chunks : List Bytes, payload = chunks.flatten ∧ chunks.length = m.chunkHashes.length ∧
        ∀ i p, chunks[i]? = some p → m.verifyChunk sha256 i p = .ok ()
  | _ => True

/-- What every transition ends with. -/
def ResultChecked (r : SyncState × List SnapshotSyncAction) : Prop :=
  r.1.Checked P R sha256 validatorSet ∧ ∀ a ∈ r.2, a.Checked P R sha256 validatorSet

end

section
variable {P : Primitives} {R : HistoryPrimitives} {sha256 : Bytes → Bytes32}
  {validatorSet : ValidatorSet} {policy : SnapshotPolicy}

namespace Fetch

/-- The slots of a checked fetch may be replaced by slots that have received nothing new. -/
theorem Checked.of_slots {f g : Fetch} (h : f.Checked P R sha256 validatorSet)
    (hm : g.manifest = f.manifest) (hl : g.chunks.length = f.chunks.length)
    (hs : ∀ i slot p, g.chunks[i]? = some slot → slot.status = .received p →
      f.manifest.verifyChunk sha256 i p = .ok () ∨ f.chunks[i]? = some slot) :
    g.Checked P R sha256 validatorSet where
  manifest := by
    rw [hm]
    exact h.manifest
  length := by
    rw [hl, hm]
    exact h.length
  received := by
    intro i slot p hi hp
    rw [hm]
    rcases hs i slot p hi hp with hok | hold
    · exact hok
    · exact h.received i slot p hold hp

theorem Checked.request {f : Fetch} (h : f.Checked P R sha256 validatorSet) (idx : ℕ)
    (peer : NodeId) : (f.request idx peer).Checked P R sha256 validatorSet := by
  refine h.of_slots rfl (List.length_modify ..) ?_
  intro i slot p hi hp
  rw [Fetch.request, List.getElem?_modify] at hi
  obtain ⟨old, hold, rfl⟩ := Option.map_eq_some_iff.mp hi
  by_cases he : idx = i
  · simp only [if_pos he] at hp
    cases hp
  · rw [if_neg he]
    exact .inr hold

/-- A slot is set to one that has received nothing, or a chunk that was verified. -/
theorem Checked.setSlot {f : Fetch} (h : f.Checked P R sha256 validatorSet) {idx : ℕ}
    {slot : ChunkSlot} (hs : ∀ p, slot.status = .received p →
      f.manifest.verifyChunk sha256 idx p = .ok ()) :
    (f.setSlot idx slot).Checked P R sha256 validatorSet := by
  refine h.of_slots rfl (List.length_set ..) ?_
  intro i slot' p hi hp
  rw [Fetch.setSlot, List.getElem?_set] at hi
  split_ifs at hi with he
  · obtain rfl := Option.some.inj hi
    exact .inl (he ▸ hs p hp)
  · exact .inr hi

theorem Checked.fail {f : Fetch} (h : f.Checked P R sha256 validatorSet) (idx : ℕ)
    (slot : ChunkSlot) (peer : NodeId) :
    (f.setSlot idx (slot.fail peer)).Checked P R sha256 validatorSet :=
  h.setSlot fun _ hp => by cases hp

/-- Candidates and counters do not matter. -/
theorem Checked.of_eq {f g : Fetch} (h : f.Checked P R sha256 validatorSet)
    (hm : g.manifest = f.manifest) (hc : g.chunks = f.chunks) :
    g.Checked P R sha256 validatorSet :=
  h.of_slots hm (by rw [hc]) fun i slot _ hi _ => .inr (hc ▸ hi)

theorem Checked.scheduleRounds {f : Fetch} (h : f.Checked P R sha256 validatorSet) (n : ℕ) :
    (f.scheduleRounds n).1.Checked P R sha256 validatorSet ∧
      ∀ a ∈ (f.scheduleRounds n).2, a.Checked P R sha256 validatorSet := by
  induction n generalizing f with
  | zero => exact ⟨h, by simp [Fetch.scheduleRounds]⟩
  | succ n ih =>
    rw [Fetch.scheduleRounds]
    split_ifs
    · exact ⟨h, by simp⟩
    · cases f.nextRequest with
      | none => exact ⟨h, by simp⟩
      | some next =>
        obtain ⟨hg, ha⟩ := ih (h.request next.1 next.2)
        exact ⟨hg, List.forall_mem_cons.mpr ⟨trivial, ha⟩⟩

theorem Checked.schedule {f : Fetch} (h : f.Checked P R sha256 validatorSet) :
    ResultChecked P R sha256 validatorSet (.fetching f.schedule.1, f.schedule.2) :=
  h.scheduleRounds _

theorem resultChecked_abort (reason : AbortReason) :
    ResultChecked P R sha256 validatorSet (.aborted, [.abort reason]) :=
  ⟨trivial, List.forall_mem_singleton.mpr trivial⟩

theorem Checked.scheduleOrAbort {f : Fetch} (h : f.Checked P R sha256 validatorSet) :
    ResultChecked P R sha256 validatorSet f.scheduleOrAbort := by
  unfold Fetch.scheduleOrAbort
  simp only
  split_ifs
  · exact resultChecked_abort _
  · exact h.schedule

theorem Checked.retry {f : Fetch} (h : f.Checked P R sha256 validatorSet) (slot : ChunkSlot)
    (chunkIdx : ℕ) : ResultChecked P R sha256 validatorSet (f.retry slot chunkIdx) := by
  unfold Fetch.retry
  split
  · exact resultChecked_abort _
  · exact h.scheduleOrAbort

theorem received?_eq_some {slot : ChunkSlot} {p : Bytes} :
    slot.received? = some p ↔ slot.status = .received p := by
  unfold ChunkSlot.received?
  cases slot.status <;> simp

theorem map_received? {chunks : List ChunkSlot}
    (h : chunks.all (fun c => c.received?.isSome) = true) :
    chunks.map ChunkSlot.received? = (chunks.filterMap ChunkSlot.received?).map some := by
  induction chunks with
  | nil => rfl
  | cons c cs ih =>
    rw [List.all_cons, Bool.and_eq_true] at h
    obtain ⟨p, hp⟩ := Option.isSome_iff_exists.mp h.1
    rw [List.map_cons, List.filterMap_cons_some hp, List.map_cons, ih h.2, hp]

/-- When all chunks are there, the payload is made of them. -/
theorem Checked.tryFinishOrSchedule {f : Fetch} (h : f.Checked P R sha256 validatorSet) :
    ResultChecked P R sha256 validatorSet f.tryFinishOrSchedule := by
  unfold Fetch.tryFinishOrSchedule
  split_ifs with hall
  · have hparts := map_received? hall
    refine ⟨trivial, List.forall_mem_singleton.mpr ⟨h.manifest, _, rfl, ?_, ?_⟩⟩
    · have hlen := congrArg List.length hparts
      rw [List.length_map, List.length_map] at hlen
      rw [← hlen, h.length, (SnapshotManifest.verify_eq_ok.mp h.manifest).chunkCount]
    · intro i p hp
      have hi : (f.chunks.map ChunkSlot.received?)[i]? = some (some p) := by
        rw [hparts, List.getElem?_map, hp]
        rfl
      rw [List.getElem?_map] at hi
      obtain ⟨slot, hslot, hreceived⟩ := Option.map_eq_some_iff.mp hi
      exact h.received i slot p hslot (received?_eq_some.mp hreceived)
  · exact h.scheduleOrAbort

theorem Checked.takeChunk {f : Fetch} (h : f.Checked P R sha256 validatorSet) (slot : ChunkSlot)
    (sender : NodeId) (chunkIdx : ℕ) (payload : Option Bytes) :
    ResultChecked P R sha256 validatorSet (f.takeChunk sha256 slot sender chunkIdx payload) := by
  have hfail := h.fail chunkIdx slot sender
  cases payload with
  | none => exact hfail.retry _ _
  | some p =>
    unfold Fetch.takeChunk
    cases hv : f.manifest.verifyChunk sha256 chunkIdx p with
    | error e =>
      simp only [hv]
      apply Checked.retry
      exact hfail.of_eq rfl rfl
    | ok u =>
      simp only [hv]
      apply Checked.tryFinishOrSchedule
      apply h.setSlot
      intro p' hp'
      obtain rfl := ChunkStatus.received.inj hp'
      exact hv

theorem Checked.onChunkResponse {f : Fetch} (h : f.Checked P R sha256 validatorSet)
    (sender : NodeId) (height chunkIdx : ℕ) (payload : Option Bytes) :
    ResultChecked P R sha256 validatorSet
      (f.onChunkResponse sha256 sender height chunkIdx payload) := by
  have hkeep : ResultChecked P R sha256 validatorSet (.fetching f, []) := ⟨h, by simp⟩
  unfold Fetch.onChunkResponse
  by_cases hh : height ≠ f.manifest.height
  · rw [if_pos hh]
    exact hkeep
  · rw [if_neg hh]
    cases f.chunks[chunkIdx]? with
    | none => exact hkeep
    | some slot =>
      by_cases hs : slot.status ≠ .inFlight sender
      · simp only [if_pos hs]
        exact hkeep
      · simp only [if_neg hs]
        apply Checked.takeChunk
        exact h.of_eq rfl rfl

theorem Checked.dropPeerFrom {f : Fetch} (h : f.Checked P R sha256 validatorSet) (peer : NodeId)
    (slots : List (ChunkSlot × ℕ)) :
    (f.dropPeerFrom peer slots).1.Checked P R sha256 validatorSet := by
  induction slots generalizing f with
  | nil => exact h
  | cons slot slots ih =>
    rw [Fetch.dropPeerFrom]
    split_ifs
    · exact ih h
    · have hf := h.fail slot.2 slot.1 peer
      simp only
      split
      · exact hf
      · exact ih hf

theorem Checked.onPeerDisconnected {f : Fetch} (h : f.Checked P R sha256 validatorSet)
    (peer : NodeId) : ResultChecked P R sha256 validatorSet (f.onPeerDisconnected peer) := by
  unfold Fetch.onPeerDisconnected
  by_cases hp : peer ∉ f.candidates
  · rw [if_pos hp]
    exact ⟨h, by simp⟩
  · rw [if_neg hp]
    have hd := Checked.dropPeerFrom (h.of_eq (g := { f with
      candidates := f.candidates.filter (· ≠ peer)
      inFlightPerPeer := f.inFlightPerPeer.erase peer }) rfl rfl) peer f.chunks.zipIdx
    simp only
    split
    · exact resultChecked_abort _
    · rename_i g hg
      rw [hg] at hd
      exact hd.scheduleOrAbort

theorem Checked.addCandidate {f : Fetch} (h : f.Checked P R sha256 validatorSet)
    (peer : NodeId) : ResultChecked P R sha256 validatorSet (f.addCandidate peer) := by
  unfold Fetch.addCandidate
  by_cases hp : peer ∈ f.candidates
  · simp only [if_pos hp]
    exact h.schedule
  · simp only [if_neg hp]
    apply Checked.schedule
    exact h.of_eq rfl rfl

theorem checked_start {m : SnapshotManifest} (hv : m.verify P R validatorSet = .ok ())
    (peers : List NodeId) : (start m peers).Checked P R sha256 validatorSet where
  manifest := hv
  length := List.length_replicate
  received := by
    intro i slot p hi hp
    obtain rfl := List.eq_of_mem_replicate (List.mem_of_getElem? hi)
    cases hp

end Fetch

namespace SyncState

theorem Checked.step {s : SyncState} (h : s.Checked P R sha256 validatorSet) (input : SyncInput) :
    ResultChecked P R sha256 validatorSet (s.step P R sha256 policy validatorSet input) := by
  have hkeep : ResultChecked P R sha256 validatorSet (s, []) := ⟨h, by simp⟩
  cases input with
  | observeProposal committed height proposer =>
    unfold SyncState.step observeProposal
    by_cases hp : (!policy.isEnabled || !validatorSet.contains proposer) = true
    · simp only [if_pos hp]
      exact hkeep
    · simp only [if_neg hp]
      cases s with
      | idle observed =>
        simp only
        split_ifs
        · exact ⟨trivial, by simp⟩
        · exact ⟨trivial, List.forall_mem_singleton.mpr trivial⟩
      | manifestPending primary observed => exact ⟨trivial, by simp⟩
      | fetching f => exact Fetch.Checked.addCandidate h proposer
      | done => exact hkeep
      | aborted => exact hkeep
  | addCandidate peer =>
    cases s with
    | fetching f => exact Fetch.Checked.addCandidate h peer
    | _ => exact hkeep
  | manifestResponse sender manifest =>
    cases s with
    | manifestPending primary observed =>
      unfold SyncState.step onManifestResponse
      simp only
      split_ifs
      · exact hkeep
      · cases manifest with
        | none => exact Fetch.resultChecked_abort _
        | some m =>
          cases hv : m.verify P R validatorSet with
          | error e =>
            simp only [hv]
            exact Fetch.resultChecked_abort _
          | ok u =>
            simp only [hv]
            exact (Fetch.checked_start hv _).schedule
    | _ => exact hkeep
  | chunkResponse sender height chunkIdx payload =>
    cases s with
    | fetching f => exact Fetch.Checked.onChunkResponse h sender height chunkIdx payload
    | _ => exact hkeep
  | peerDisconnected peer =>
    cases s with
    | idle observed => exact ⟨trivial, by simp [SyncState.step, onPeerDisconnected]⟩
    | manifestPending primary observed =>
      unfold SyncState.step onPeerDisconnected
      simp only
      split_ifs
      · exact Fetch.resultChecked_abort _
      · exact ⟨trivial, by simp⟩
    | fetching f => exact Fetch.Checked.onPeerDisconnected h peer
    | done => exact hkeep
    | aborted => exact hkeep

/-- In every run, what is restored has been verified. -/
theorem checked_of_mem_actions {s : SyncState} (h : s.Checked P R sha256 validatorSet)
    {inputs : List SyncInput} {a : SnapshotSyncAction}
    (ha : a ∈ s.actions P R sha256 policy validatorSet inputs) :
    a.Checked P R sha256 validatorSet := by
  induction inputs generalizing s with
  | nil => cases ha
  | cons input inputs ih =>
    obtain ⟨hs, hfirst⟩ := h.step input
    rcases List.mem_append.mp ha with ha | ha
    · exact hfirst a ha
    · exact ih hs ha

end SyncState

end

end Boule
