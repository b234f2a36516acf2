import Boule.Node.FetchRounds

/-! What one call does to a snapshot fetch, and the log of a run. -/
namespace Boule

namespace Fetch

section
variable (sha256 : Bytes → Bytes32)

/-- What an answer or a disconnect makes of a chunk, before the next requests. -/
inductive SlotStep (f : Fetch) (input : SyncInput) (idx : ℕ) : ChunkSlot → ChunkSlot → Prop
  | kept (slot : ChunkSlot) : SlotStep f input idx slot slot
  | failed {slot : ChunkSlot} {peer : NodeId} (asked : slot.status = .inFlight peer)
    (left : slot.attempts + 1 < perChunkRetryBudget) : SlotStep f input idx slot (slot.fail peer)
  | received {slot : ChunkSlot} {sender : NodeId} {height : ℕ} {p : Bytes}
    (asked : slot.status = .inFlight sender)
    (answer : input = .chunkResponse sender height idx (some p))
    (verified : f.manifest.verifyChunk sha256 idx p = .ok ()) :
    SlotStep f input idx slot { slot with status := .received p }

/-- What an answer or a disconnect makes of a fetch, before the next requests. -/
structure Moved (f : Fetch) (input : SyncInput) (g : Fetch) : Prop where
  manifest : g.manifest = f.manifest
  length : g.chunks.length = f.chunks.length
  slots : ∀ idx slot, f.chunks[idx]? = some slot →
    ∃ slot', g.chunks[idx]? = some slot' ∧ SlotStep sha256 f input idx slot slot'

/-- All that a call can end with. -/
inductive Outcome (f : Fetch) (input : SyncInput) : SyncState × List SnapshotSyncAction → Prop
  | aborted (reason : AbortReason) : Outcome f input (.aborted, [.abort reason])
  | finished {g : Fetch} (moved : Moved sha256 f input g)
    (all : g.chunks.all (fun c => c.received?.isSome) = true) :
    Outcome f input (.done, [.restore g.manifest g.payload])
  | waiting {g next : Fetch} {asked : List (ℕ × NodeId)} (moved : Moved sha256 f input g)
    (rounds : Rounds g asked next) : Outcome f input (.fetching next,
      asked.map fun a => .sendChunkRequest a.2 g.manifest.height a.1)

end

section
variable {sha256 : Bytes → Bytes32} {f g : Fetch} {input : SyncInput}

theorem Moved.of_eq (hm : g.manifest = f.manifest) (hc : g.chunks = f.chunks) :
    Moved sha256 f input g where
  manifest := hm
  length := congrArg List.length hc
  slots idx slot hslot := ⟨slot, by rw [hc, hslot], .kept slot⟩

theorem outcome_kept : Outcome sha256 f input (.fetching f, []) :=
  .waiting (.of_eq rfl rfl) (.stop f)

/-- One chunk has been moved. -/
theorem Moved.of_set {idx : ℕ} {slot slot' : ChunkSlot} (hslot : f.chunks[idx]? = some slot)
    (hm : g.manifest = f.manifest) (hc : g.chunks = f.chunks.set idx slot')
    (hstep : SlotStep sha256 f input idx slot slot') : Moved sha256 f input g where
  manifest := hm
  length := by rw [hc, List.length_set]
  slots := by
    intro i old hold
    by_cases he : idx = i
    · subst he
      obtain rfl := Option.some.inj (hslot.symm.trans hold)
      refine ⟨slot', ?_, hstep⟩
      rw [hc, List.getElem?_set_self (List.getElem?_eq_some_iff.mp hslot).1]
    · refine ⟨old, ?_, .kept old⟩
      rw [hc, List.getElem?_set_ne he, hold]

theorem Moved.schedule (h : Moved sha256 f input g) :
    Outcome sha256 f input (.fetching g.schedule.1, g.schedule.2) := by
  obtain ⟨asked, hrounds, hactions, -⟩ := g.rounds_schedule
  rw [hactions]
  exact .waiting h hrounds

theorem Moved.scheduleOrAbort (h : Moved sha256 f input g) :
    Outcome sha256 f input g.scheduleOrAbort := by
  unfold Fetch.scheduleOrAbort
  simp only
  split_ifs
  · exact .aborted _
  · exact h.schedule

theorem Moved.tryFinishOrSchedule (h : Moved sha256 f input g) :
    Outcome sha256 f input g.tryFinishOrSchedule := by
  unfold Fetch.tryFinishOrSchedule
  split_ifs with hall
  · exact .finished h hall
  · exact h.scheduleOrAbort

theorem attempts_of_checkChunkAbort {slot : ChunkSlot} {idx : ℕ} {candidates : List NodeId}
    (h : checkChunkAbort slot idx candidates = none) : slot.attempts < perChunkRetryBudget := by
  unfold checkChunkAbort at h
  split_ifs at h with hattempts
  exact not_le.mp hattempts

/-- A chunk that has failed is tried again only within the budget. -/
theorem outcome_retry {idx : ℕ} {slot : ChunkSlot} {peer : NodeId}
    (hslot : f.chunks[idx]? = some slot) (hasked : slot.status = .inFlight peer)
    (hm : g.manifest = f.manifest) (hc : g.chunks = f.chunks.set idx (slot.fail peer)) :
    Outcome sha256 f input (g.retry (slot.fail peer) idx) := by
  unfold Fetch.retry
  cases habort : checkChunkAbort (slot.fail peer) idx g.candidates with
  | some reason => exact .aborted reason
  | none =>
    have hleft : slot.attempts + 1 < perChunkRetryBudget := attempts_of_checkChunkAbort habort
    exact (Moved.of_set hslot hm hc (.failed hasked hleft)).scheduleOrAbort

theorem outcome_onChunkResponse (sender : NodeId) (height chunkIdx : ℕ) (payload : Option Bytes) :
    Outcome sha256 f (.chunkResponse sender height chunkIdx payload)
      (f.onChunkResponse sha256 sender height chunkIdx payload) := by
  unfold Fetch.onChunkResponse
  by_cases hh : height ≠ f.manifest.height
  · rw [if_pos hh]
    exact outcome_kept
  rw [if_neg hh]
  cases hslot : f.chunks[chunkIdx]? with
  | none => exact outcome_kept
  | some slot =>
    by_cases hs : slot.status ≠ .inFlight sender
    · simp only [if_pos hs]
      exact outcome_kept
    simp only [if_neg hs]
    have hasked := not_not.mp hs
    unfold Fetch.takeChunk
    cases payload with
    | none => exact outcome_retry hslot hasked rfl rfl
    | some p =>
      cases hv : f.manifest.verifyChunk sha256 chunkIdx p with
      | error e =>
        have hv' : (f.release sender).manifest.verifyChunk sha256 chunkIdx p = .error e := hv
        simp only [hv']
        exact outcome_retry hslot hasked rfl rfl
      | ok u =>
        have hv' : (f.release sender).manifest.verifyChunk sha256 chunkIdx p = .ok u := hv
        simp only [hv']
        apply Moved.tryFinishOrSchedule
        exact .of_set hslot rfl rfl (.received hasked rfl hv)

/-- Nothing is given up: every chunk that the peer was asked for has attempts left. -/
theorem left_of_dropPeerFrom {peer : NodeId} {slots : List (ChunkSlot × ℕ)}
    (h : f.dropPeerFrom peer slots = (g, none)) :
    ∀ e ∈ slots, e.1.status = .inFlight peer → e.1.attempts + 1 < perChunkRetryBudget := by
  induction slots generalizing f with
  | nil => exact fun e he => by cases he
  | cons first rest ih =>
    obtain ⟨slot, idx⟩ := first
    rw [dropPeerFrom] at h
    by_cases hs : slot.status ≠ .inFlight peer
    · rw [if_pos hs] at h
      exact List.forall_mem_cons.mpr ⟨fun hasked => absurd hasked hs, ih h⟩
    · rw [if_neg hs] at h
      simp only at h
      cases habort : checkChunkAbort (slot.fail peer) idx
          (f.setSlot idx (slot.fail peer)).candidates with
      | some reason =>
        rw [habort] at h
        cases (Prod.mk.inj h).2
      | none =>
        rw [habort] at h
        exact List.forall_mem_cons.mpr ⟨fun _ => attempts_of_checkChunkAbort habort, ih h⟩

theorem outcome_onPeerDisconnected (peer : NodeId) :
    Outcome sha256 f input (f.onPeerDisconnected peer) := by
  unfold Fetch.onPeerDisconnected
  by_cases hp : peer ∉ f.candidates
  · rw [if_pos hp]
    exact outcome_kept
  rw [if_neg hp]
  simp only
  split
  · exact .aborted _
  · rename_i g hg
    have hlost : g = { f.dropped peer with chunks := [] ++ f.chunks.map (lostFrom peer) } :=
      dropPeerFrom_eq rfl hg
    apply Moved.scheduleOrAbort
    constructor
    · rw [hlost]
      rfl
    · rw [hlost]
      exact List.length_map ..
    · intro idx slot hslot
      refine ⟨lostFrom peer slot, ?_, ?_⟩
      · rw [hlost]
        show (f.chunks.map (lostFrom peer))[idx]? = _
        rw [List.getElem?_map, hslot]
        rfl
      · unfold lostFrom
        split_ifs with hasked
        · have hmem : (slot, idx) ∈ f.chunks.zipIdx := List.mem_zipIdx_iff_getElem?.mpr hslot
          exact .failed hasked (left_of_dropPeerFrom hg (slot, idx) hmem hasked)
        · exact .kept slot

theorem outcome_addCandidate (peer : NodeId) : Outcome sha256 f input (f.addCandidate peer) := by
  unfold Fetch.addCandidate
  by_cases hp : peer ∈ f.candidates
  · simp only [if_pos hp]
    exact (Moved.of_eq rfl rfl).schedule
  · simp only [if_neg hp]
    apply Moved.schedule
    exact Moved.of_eq rfl rfl

end

end Fetch

namespace SyncState

section
variable (P : Primitives) (R : HistoryPrimitives) (sha256 : Bytes → Bytes32)
  (policy : SnapshotPolicy)

/-- The manifest that the call starts a fetch with. -/
def accepted? : SyncState → ValidatorSet × SyncInput → Option SnapshotManifest
  | .manifestPending primary _, (validatorSet, .manifestResponse sender (some m)) =>
    if sender = primary ∧ m.verify P R validatorSet = .ok () then some m else none
  | _, _ => none

/-- No fetch has begun. -/
def Seeking : SyncState → Prop
  | .idle _ => True
  | .manifestPending _ _ => True
  | _ => False

/-- All that a call can end with before a fetch. -/
inductive Sought (s : SyncState) (call : ValidatorSet × SyncInput) :
    SyncState × List SnapshotSyncAction → Prop
  | seeking {s' : SyncState} {actions : List SnapshotSyncAction}
    (none : s.accepted? P R call = none) (seeking : s'.Seeking)
    (asks : ∀ a ∈ actions, ∃ peer, a = .sendManifestRequest peer) :
    Sought s call (s', actions)
  | aborted (none : s.accepted? P R call = none) (reason : AbortReason) :
    Sought s call (.aborted, [.abort reason])
  | started {m : SnapshotManifest} {peers : List NodeId} {g : Fetch} {asked : List (ℕ × NodeId)}
    (accepted : s.accepted? P R call = some m) (verified : m.verify P R call.1 = .ok ())
    (rounds : Fetch.Rounds (.start m peers) asked g) : Sought s call (.fetching g,
      asked.map fun a => .sendChunkRequest a.2 m.height a.1)

end

end SyncState

/-- What has come in and gone out in a run. -/
structure SyncLog where
  accepted : List SnapshotManifest
  sent : List Bytes
  emitted : List SnapshotSyncAction

def SyncLog.empty : SyncLog := ⟨[], [], []⟩

def SyncLog.after (log : SyncLog) (accepted : Option SnapshotManifest) (sent : Option Bytes)
    (actions : List SnapshotSyncAction) : SyncLog :=
  ⟨log.accepted ++ accepted.toList, log.sent ++ sent.toList, log.emitted ++ actions⟩

def SyncInput.chunk? : SyncInput → Option (ℕ × Bytes)
  | .chunkResponse _ _ chunkIdx payload => payload.map (chunkIdx, ·)
  | _ => none

namespace SyncState

section
variable (P : Primitives) (R : HistoryPrimitives) (sha256 : Bytes → Bytes32)
  (policy : SnapshotPolicy)

/-- A call of the machine whose accepted manifests, received bytes and actions are logged. -/
def record (r : SyncState × SyncLog) (call : ValidatorSet × SyncInput) : SyncState × SyncLog :=
  let (s, actions) := r.1.step P R sha256 policy call.1 call.2
  (s, r.2.after (r.1.accepted? P R call) (call.2.chunk?.map Prod.snd) actions)

/-- The state and the log after a run. -/
def recorded (calls : List (ValidatorSet × SyncInput)) : SyncState × SyncLog :=
  run (record P R sha256 policy) (.new, .empty) calls

end

section
variable {P : Primitives} {R : HistoryPrimitives} {sha256 : Bytes → Bytes32}
  {policy : SnapshotPolicy} {validatorSet : ValidatorSet}

theorem outcome_step (f : Fetch) (input : SyncInput) :
    f.Outcome sha256 input ((fetching f).step P R sha256 policy validatorSet input) := by
  cases input with
  | observeProposal committed height proposer =>
    unfold SyncState.step SyncState.observeProposal
    simp only
    split_ifs
    · exact Fetch.outcome_kept
    · exact f.outcome_addCandidate proposer
  | addCandidate peer => exact f.outcome_addCandidate peer
  | manifestResponse sender manifest => exact Fetch.outcome_kept
  | chunkResponse sender height chunkIdx payload =>
    exact f.outcome_onChunkResponse sender height chunkIdx payload
  | peerDisconnected peer => exact f.outcome_onPeerDisconnected peer

/-- Nothing but the primary's answer starts a fetch or gives it up. -/
theorem sought_onManifestResponse (primary : NodeId) (observed : List NodeId) (sender : NodeId)
    (manifest : Option SnapshotManifest) :
    (manifestPending primary observed).Sought P R (validatorSet, .manifestResponse sender manifest)
      ((manifestPending primary observed).onManifestResponse P R validatorSet sender manifest) := by
  unfold onManifestResponse
  simp only
  by_cases hsender : sender ≠ primary
  · rw [if_pos hsender]
    refine .seeking ?_ trivial fun a ha => by cases ha
    cases manifest with
    | none => rfl
    | some m => exact if_neg fun h => hsender h.1
  rw [if_neg hsender]
  cases manifest with
  | none => exact .aborted rfl _
  | some m =>
    cases hv : m.verify P R validatorSet with
    | error e =>
      simp only [hv]
      refine .aborted ?_ _
      apply if_neg
      rw [hv]
      exact fun h => by cases h.2
    | ok u =>
      simp only [hv]
      obtain ⟨asked, hrounds, hactions, -⟩ :=
        (Fetch.start m (observed.insert primary)).rounds_schedule
      rw [hactions]
      exact .started (if_pos ⟨not_not.mp hsender, hv⟩) hv hrounds

theorem sought_step {s : SyncState} (h : s.Seeking) (call : ValidatorSet × SyncInput) :
    s.Sought P R call (s.step P R sha256 policy call.1 call.2) := by
  obtain ⟨vs, input⟩ := call
  have hnone : ∀ a ∈ ([] : List SnapshotSyncAction), ∃ peer, a = .sendManifestRequest peer :=
    fun a ha => by cases ha
  cases s with
  | idle observed =>
    cases input with
    | observeProposal committed height proposer =>
      unfold SyncState.step observeProposal
      simp only
      split_ifs
      · exact .seeking rfl trivial hnone
      · exact .seeking rfl trivial hnone
      · exact .seeking rfl trivial (List.forall_mem_singleton.mpr ⟨proposer, rfl⟩)
    | _ => exact .seeking rfl trivial hnone
  | manifestPending primary observed =>
    cases input with
    | observeProposal committed height proposer =>
      unfold SyncState.step observeProposal
      simp only
      split_ifs
      · exact .seeking rfl trivial hnone
      · exact .seeking rfl trivial hnone
    | manifestResponse sender manifest =>
      exact sought_onManifestResponse primary observed sender manifest
    | peerDisconnected peer =>
      unfold SyncState.step onPeerDisconnected
      simp only
      split_ifs
      · exact .aborted rfl _
      · exact .seeking rfl trivial hnone
    | _ => exact .seeking rfl trivial hnone
  | fetching f => exact h.elim
  | done => exact h.elim
  | aborted => exact h.elim

/-- A machine that has ended stays as it is. -/
theorem record_of_ended {s : SyncState} (h : s = .done ∨ s = .aborted) (log : SyncLog)
    (call : ValidatorSet × SyncInput) : record P R sha256 policy (s, log) call =
      (s, log.after none (call.2.chunk?.map Prod.snd) []) := by
  obtain ⟨vs, input⟩ := call
  have hstep : s.step P R sha256 policy vs input = (s, []) := by
    rcases h with rfl | rfl
    · cases input with
      | observeProposal committed height proposer => exact ite_self _
      | _ => rfl
    · cases input with
      | observeProposal committed height proposer => exact ite_self _
      | _ => rfl
  have hnone : s.accepted? P R (vs, input) = none := by
    rcases h with rfl | rfl <;> rfl
  unfold record
  simp only [hstep, hnone]

end

end SyncState

end Boule
