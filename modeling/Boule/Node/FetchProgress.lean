import Boule.Node.FetchOutcomes

/-! When a snapshot fetch waits for an answer that can still come. -/
namespace Boule

/-- The peers that have disconnected and have not been heard of since. -/
def SyncInput.goneAfter (gone : List NodeId) : SyncInput → List NodeId
  | .peerDisconnected peer => peer :: gone
  | .observeProposal _ _ proposer => gone.filter (· ≠ proposer)
  | .addCandidate peer => gone.filter (· ≠ peer)
  | _ => gone

def SyncInput.manifest? : SyncInput → Option SnapshotManifest
  | .manifestResponse _ manifest => manifest
  | _ => none

def departed (calls : List (ValidatorSet × SyncInput)) : List NodeId :=
  run (fun gone call => call.2.goneAfter gone) [] calls

namespace SyncState

/-- What the machine waits for can still come: an answer of a peer that is there. -/
def Waits (gone : List NodeId) : SyncState → Prop
  | .manifestPending primary _ => primary ∉ gone
  | .fetching f => ∃ slot ∈ f.chunks, ∃ peer, slot.status = .inFlight peer ∧
      peer ∈ f.candidates ∧ peer ∉ gone
  | _ => True

/-- A manifest that starts a fetch has chunks. -/
def HasChunks (P : Primitives) (R : HistoryPrimitives) :
    SyncState → ValidatorSet × SyncInput → Prop
  | .manifestPending primary _, (validatorSet, .manifestResponse sender (some m)) =>
    sender = primary → m.verify P R validatorSet = .ok () → m.chunkCount ≠ 0
  | _, _ => True

/-- Everybody who may be asked is there, and some chunk is on its way. -/
def Served (gone : List NodeId) : SyncState → Prop
  | .idle observed => observed.Nodup ∧ ∀ peer ∈ observed, peer ∉ gone
  | .manifestPending primary observed =>
    primary ∉ gone ∧ observed.Nodup ∧ ∀ peer ∈ observed, peer ∉ gone
  | .fetching f => (∀ peer ∈ f.candidates, peer ∉ gone) ∧ 0 < f.inFlight
  | _ => True

end SyncState

namespace Fetch

/-! ### Chunks on their way -/

theorem inFlight_pos_iff {f : Fetch} :
    0 < f.inFlight ↔ ∃ slot ∈ f.chunks, ∃ peer, slot.status = .inFlight peer := by
  rw [inFlight, List.countP_pos_iff]
  constructor
  · rintro ⟨slot, hs, hasked⟩
    obtain ⟨peer, hp⟩ := Option.isSome_iff_exists.mp hasked
    exact ⟨slot, hs, peer, ChunkSlot.asked?_eq_some.mp hp⟩
  · rintro ⟨slot, hs, peer, hp⟩
    exact ⟨slot, hs, Option.isSome_iff_exists.mpr ⟨peer, ChunkSlot.asked?_eq_some.mpr hp⟩⟩

theorem Rounds.inFlight {f g : Fetch} {asked : List (ℕ × NodeId)} (h : Rounds f asked g) :
    g.inFlight = f.inFlight + asked.length := by
  induction h with
  | stop f => rfl
  | @ask f g idx peer rest hask tail ih =>
    obtain ⟨slot, hslot, hpending, -⟩ := nextRequest_eq_some hask.next
    have hset := inFlight_setSlot hslot { slot with status := .inFlight peer }
    have hidle : slot.asked? = none := ChunkSlot.asked?_eq_none fun _ hs => by simp [hs] at hpending
    have hasked : ({ slot with status := .inFlight peer } : ChunkSlot).asked? = some peer := rfl
    simp only [hidle, hasked, Option.isSome_none, Bool.false_eq_true, if_false, Nat.add_zero,
      Option.isSome_some, if_true] at hset
    have hreq : (f.request idx peer).inFlight = f.inFlight + 1 := by
      rw [request_eq hslot]
      exact hset
    rw [ih, hreq, List.length_cons]
    omega

/-- A pending chunk that nobody is asked for: all candidates have failed it or are busy. -/
theorem nextRequest_eq_none {f : Fetch} (h : f.nextRequest = none) {slot : ChunkSlot}
    (hs : slot ∈ f.chunks) (hp : slot.status = .pending) {peer : NodeId}
    (hc : peer ∈ f.candidates) : peer ∈ slot.tried ∨ perPeerChunkConcurrency ≤ f.counter peer := by
  obtain ⟨i, hi⟩ := List.mem_iff_getElem?.mp hs
  have hnone := List.findSome?_eq_none_iff.mp h (slot, i) (List.mem_zipIdx_iff_getElem?.mpr hi)
  simp only [hp, ne_eq, not_true_eq_false, if_false, Option.map_eq_none_iff,
    List.find?_eq_none] at hnone
  have htest := hnone peer hc
  rw [Bool.and_eq_true, decide_eq_true_iff, decide_eq_true_iff, not_and_or, not_not, not_lt]
    at htest
  exact htest

/-- A fetch with work left is given up, or goes on with a chunk on its way. -/
theorem served_scheduleOrAbort {f : Fetch} {gone : List NodeId}
    (hc : ∀ peer ∈ f.candidates, peer ∉ gone) (hwork : ∃ slot ∈ f.chunks, slot.received? = none) :
    f.scheduleOrAbort.1.Served gone := by
  obtain ⟨asked, hrounds, hactions, -⟩ := f.rounds_schedule
  unfold Fetch.scheduleOrAbort
  simp only
  split_ifs with hstop
  · trivial
  refine ⟨fun peer hp => hc peer (hrounds.candidates ▸ hp), ?_⟩
  by_contra hnone
  have hidle : ∀ slot ∈ f.schedule.1.chunks, ∀ peer, slot.status ≠ .inFlight peer :=
    fun slot hs peer hp => hnone (inFlight_pos_iff.mpr ⟨slot, hs, peer, hp⟩)
  apply hstop
  have hlength := hrounds.inFlight
  have hasked : asked = [] := List.eq_nil_of_length_eq_zero (by omega)
  obtain ⟨slot, hs, hmissing⟩ := hwork
  have hpending : slot.status = .pending ∧ slot ∈ f.schedule.1.chunks := by
    obtain ⟨i, hi⟩ := List.mem_iff_getElem?.mp hs
    obtain ⟨slot', hi', hsched⟩ := hrounds.scheduled hi
    have hmem := List.mem_of_getElem? hi'
    cases hsched with
    | kept _ =>
      refine ⟨?_, hmem⟩
      cases hstatus : slot.status with
      | pending => rfl
      | inFlight peer => exact absurd hstatus (hidle slot hmem peer)
      | received payload => simp [ChunkSlot.received?, hstatus] at hmissing
    | sent peer _ _ _ _ => exact absurd rfl (hidle _ hmem peer)
  rw [hactions, hasked, Bool.and_eq_true, Bool.and_eq_true, Bool.not_eq_true']
  refine ⟨⟨List.any_eq_false.mpr fun slot' hs' hflight => ?_, ?_⟩, rfl⟩
  · cases hstatus : slot'.status with
    | inFlight peer => exact hidle slot' hs' peer hstatus
    | _ => simp [hstatus] at hflight
  · exact List.any_eq_true.mpr ⟨slot, hpending.2, decide_eq_true hpending.1⟩

theorem served_retry {f : Fetch} {gone : List NodeId} (hc : ∀ peer ∈ f.candidates, peer ∉ gone)
    (slot : ChunkSlot) (chunkIdx : ℕ) (hwork : ∃ slot ∈ f.chunks, slot.received? = none) :
    (f.retry slot chunkIdx).1.Served gone := by
  unfold Fetch.retry
  split
  · trivial
  · exact served_scheduleOrAbort hc hwork

theorem served_tryFinishOrSchedule {f : Fetch} {gone : List NodeId}
    (hc : ∀ peer ∈ f.candidates, peer ∉ gone) : f.tryFinishOrSchedule.1.Served gone := by
  unfold Fetch.tryFinishOrSchedule
  split_ifs with hall
  · trivial
  · apply served_scheduleOrAbort hc
    simpa [Option.isSome_iff_ne_none] using hall

theorem served_takeChunk {f : Fetch} {gone : List NodeId}
    (hc : ∀ peer ∈ f.candidates, peer ∉ gone) (sha256 : Bytes → Bytes32) {slot : ChunkSlot}
    (sender : NodeId) {idx : ℕ} (hslot : f.chunks[idx]? = some slot) (payload : Option Bytes) :
    (f.takeChunk sha256 slot sender idx payload).1.Served gone := by
  have hwork : ∃ slot' ∈ (f.setSlot idx (slot.fail sender)).chunks, slot'.received? = none := by
    refine ⟨slot.fail sender, ?_, rfl⟩
    apply List.mem_of_getElem? (i := idx)
    exact List.getElem?_set_self (List.getElem?_eq_some_iff.mp hslot).1
  unfold Fetch.takeChunk
  cases payload with
  | none => exact served_retry (f := f.setSlot idx (slot.fail sender)) hc _ _ hwork
  | some p =>
    cases hv : f.manifest.verifyChunk sha256 idx p with
    | ok u =>
      simp only [hv]
      exact served_tryFinishOrSchedule hc
    | error e =>
      simp only [hv]
      exact served_retry (fun peer hp => hc peer (List.mem_of_mem_filter hp)) _ _ hwork

theorem served_onChunkResponse {f : Fetch} {gone : List NodeId}
    (h : (SyncState.fetching f).Served gone) (sha256 : Bytes → Bytes32) (sender : NodeId)
    (height chunkIdx : ℕ) (payload : Option Bytes) :
    (f.onChunkResponse sha256 sender height chunkIdx payload).1.Served gone := by
  unfold Fetch.onChunkResponse
  by_cases hh : height ≠ f.manifest.height
  · rw [if_pos hh]
    exact h
  rw [if_neg hh]
  cases hslot : f.chunks[chunkIdx]? with
  | none => exact h
  | some slot =>
    by_cases hs : slot.status ≠ .inFlight sender
    · simp only [if_pos hs]
      exact h
    · simp only [if_neg hs]
      exact served_takeChunk (f := f.release sender) h.1 sha256 sender hslot payload

theorem served_onPeerDisconnected {f : Fetch} {gone : List NodeId}
    (h : (SyncState.fetching f).Served gone) (peer : NodeId) :
    (f.onPeerDisconnected peer).1.Served (peer :: gone) := by
  obtain ⟨hc, hflight⟩ := h
  have hpresent : ∀ p ∈ f.candidates, p ≠ peer → p ∉ peer :: gone := fun p hp hne hmem =>
    (List.mem_cons.mp hmem).elim hne (hc p hp)
  unfold Fetch.onPeerDisconnected
  by_cases hp : peer ∉ f.candidates
  · rw [if_pos hp]
    refine ⟨fun p hmem => hpresent p hmem ?_, hflight⟩
    rintro rfl
    exact hp hmem
  · rw [if_neg hp]
    simp only
    split
    · trivial
    · rename_i g hg
      have hlost : g = { f.dropped peer with chunks := [] ++ f.chunks.map (lostFrom peer) } :=
        dropPeerFrom_eq rfl hg
      obtain ⟨slot, hs, asked, hasked⟩ := inFlight_pos_iff.mp hflight
      rw [hlost]
      apply served_scheduleOrAbort
      · intro p hmem
        obtain ⟨hmem, hne⟩ := List.mem_filter.mp hmem
        exact hpresent p hmem (of_decide_eq_true hne)
      · refine ⟨lostFrom peer slot, List.mem_map_of_mem hs, ?_⟩
        unfold lostFrom
        split_ifs
        · rfl
        · simp [ChunkSlot.received?, hasked]

theorem served_addCandidate {f : Fetch} {gone : List NodeId}
    (h : (SyncState.fetching f).Served gone) (peer : NodeId) :
    (f.addCandidate peer).1.Served (gone.filter (· ≠ peer)) := by
  obtain ⟨hc, hflight⟩ := h
  have hkept : ∀ p ∈ f.candidates, p ∉ gone.filter (· ≠ peer) := fun p hp hmem =>
    hc p hp (List.mem_of_mem_filter hmem)
  unfold Fetch.addCandidate
  by_cases hp : peer ∈ f.candidates
  · simp only [if_pos hp]
    obtain ⟨asked, hrounds, -, -⟩ := f.rounds_schedule
    refine ⟨fun p hmem => hkept p (hrounds.candidates ▸ hmem), ?_⟩
    rw [hrounds.inFlight]
    omega
  · simp only [if_neg hp]
    generalize hg : ({ f with
      candidates := f.candidates ++ [peer]
      inFlightPerPeer := if f.inFlightPerPeer.containsKey peer then f.inFlightPerPeer
        else f.inFlightPerPeer.insert peer 0 } : Fetch) = g
    have hcandidates : g.candidates = f.candidates ++ [peer] := hg ▸ rfl
    have hsame : g.inFlight = f.inFlight := hg ▸ rfl
    obtain ⟨asked, hrounds, -, -⟩ := g.rounds_schedule
    refine ⟨fun p hmem => ?_, ?_⟩
    · rw [hrounds.candidates, hcandidates] at hmem
      rcases List.mem_append.mp hmem with hmem | hmem
      · exact hkept p hmem
      · rw [List.mem_singleton.mp hmem]
        simp
    · rw [hrounds.inFlight]
      omega

/-! ### The start of a fetch -/

theorem busy_start (m : SnapshotManifest) (peers : List NodeId) : (start m peers).busy = 0 := by
  apply Table.sumOf_eq_zero (f := fun _ c : ℕ => c)
  intro peer
  have hzero : ((start m peers).inFlightPerPeer.get? peer).getD 0 = 0 :=
    getD_foldl_insert_zero peer (by simp)
  unfold Table.share
  cases hc : (start m peers).inFlightPerPeer.get? peer with
  | none => rfl
  | some c =>
    rw [hc] at hzero
    exact hzero

/-- A fetch with chunks and peers begins with a request. -/
theorem inFlight_schedule_start {m : SnapshotManifest} (hm : m.chunkCount ≠ 0) {peers : List NodeId}
    {peer : NodeId} (hp : peer ∈ peers) : 0 < (start m peers).schedule.1.inFlight := by
  obtain ⟨asked, hrounds, -, hend⟩ := (start m peers).rounds_schedule
  rw [hrounds.inFlight]
  cases asked with
  | cons a rest => simp
  | nil =>
    exfalso
    rw [hrounds.eq_of_nil] at hend
    cases hnext : (start m peers).nextRequest with
    | some next =>
      refine hend next.1 next.2 ⟨?_, hnext⟩
      rw [busy_start]
      exact Nat.zero_lt_succ _
    | none =>
      have hslot : ChunkSlot.fresh ∈ (start m peers).chunks :=
        List.mem_replicate.mpr ⟨hm, rfl⟩
      rcases nextRequest_eq_none hnext hslot rfl (mem_sortedSet.mpr hp) with htried | hbusy
      · cases htried
      · rw [(booked_start m peers).counter] at hbusy
        have hnone : (start m peers).inFlightAt peer = 0 := by
          refine List.countP_eq_zero.mpr fun slot hs hp => ?_
          obtain rfl := List.eq_of_mem_replicate hs
          cases of_decide_eq_true hp
        rw [hnone] at hbusy
        cases hbusy

end Fetch

namespace SyncState

theorem Served.waits {s : SyncState} {gone : List NodeId} (hb : s.Booked) (h : s.Served gone) :
    s.Waits gone := by
  cases s with
  | manifestPending primary observed => exact h.1
  | fetching f =>
    obtain ⟨slot, hs, peer, hp⟩ := Fetch.inFlight_pos_iff.mp h.2
    have hmem := (hb.asked slot hs peer hp).1
    exact ⟨slot, hs, peer, hp, hmem, h.1 peer hmem⟩
  | _ => trivial

/-- Nobody leaves with an input that names no peer to leave. -/
theorem Served.mono {s : SyncState} {gone gone' : List NodeId} (h : s.Served gone)
    (hsub : ∀ peer ∈ gone', peer ∈ gone) : s.Served gone' := by
  cases s with
  | idle observed => exact ⟨h.1, fun peer hp hmem => h.2 peer hp (hsub peer hmem)⟩
  | manifestPending primary observed =>
    exact ⟨fun hmem => h.1 (hsub primary hmem), h.2.1,
      fun peer hp hmem => h.2.2 peer hp (hsub peer hmem)⟩
  | fetching f => exact ⟨fun peer hp hmem => h.1 peer hp (hsub peer hmem), h.2⟩
  | _ => trivial

section
variable {P : Primitives} {R : HistoryPrimitives} {sha256 : Bytes → Bytes32}
  {validatorSet : ValidatorSet} {policy : SnapshotPolicy} {s : SyncState} {gone : List NodeId}
  (h : s.Served gone)
include h

theorem served_observeProposal (committed height : ℕ) (proposer : NodeId) :
    (s.observeProposal policy validatorSet committed height proposer).1.Served
      (gone.filter (· ≠ proposer)) := by
  have hkept : s.Served (gone.filter (· ≠ proposer)) := h.mono fun _ => List.mem_of_mem_filter
  have hinsert : ∀ observed : List NodeId, (∀ peer ∈ observed, peer ∉ gone.filter (· ≠ proposer)) →
      ∀ peer ∈ observed.insert proposer, peer ∉ gone.filter (· ≠ proposer) := by
    intro observed hobserved peer hp
    rcases List.mem_insert_iff.mp hp with rfl | hp
    · simp
    · exact hobserved peer hp
  have hproposer : proposer ∉ gone.filter (· ≠ proposer) := by simp
  unfold SyncState.observeProposal
  by_cases hskip : (!policy.isEnabled || !validatorSet.contains proposer) = true
  · rw [if_pos hskip]
    exact hkept
  rw [if_neg hskip]
  cases s with
  | idle observed =>
    simp only
    split_ifs
    · exact ⟨hkept.1.insert, hinsert observed hkept.2⟩
    · exact ⟨hproposer, hkept.1.insert, hinsert observed hkept.2⟩
  | manifestPending primary observed =>
    exact ⟨hkept.1, hkept.2.1.insert, hinsert observed hkept.2.2⟩
  | fetching f => exact Fetch.served_addCandidate h proposer
  | _ => trivial

theorem served_onManifestResponse (sender : NodeId) (manifest : Option SnapshotManifest)
    (hchunks : s.HasChunks P R (validatorSet, .manifestResponse sender manifest)) :
    (s.onManifestResponse P R validatorSet sender manifest).1.Served gone := by
  cases s with
  | manifestPending primary observed =>
    unfold SyncState.onManifestResponse
    simp only
    by_cases hsender : sender ≠ primary
    · rw [if_pos hsender]
      exact h
    rw [if_neg hsender]
    cases manifest with
    | none => trivial
    | some m =>
      cases hv : m.verify P R validatorSet with
      | error e =>
        simp only [hv]
        trivial
      | ok u =>
        simp only [hv]
        obtain ⟨asked, hrounds, -, -⟩ :=
          (Fetch.start m (observed.insert primary)).rounds_schedule
        refine ⟨fun peer hp => ?_, ?_⟩
        · rw [hrounds.candidates] at hp
          rcases List.mem_insert_iff.mp (mem_sortedSet.mp hp) with rfl | hp
          · exact h.1
          · exact h.2.2 peer hp
        · exact Fetch.inFlight_schedule_start (hchunks (not_not.mp hsender) hv)
            List.mem_insert_self
  | _ => exact h

theorem served_onPeerDisconnected (peer : NodeId) :
    (s.onPeerDisconnected peer).1.Served (peer :: gone) := by
  have herase : ∀ observed : List NodeId, observed.Nodup → (∀ p ∈ observed, p ∉ gone) →
      ∀ p ∈ observed.erase peer, p ∉ peer :: gone := by
    intro observed hnodup hobserved p hp hmem
    obtain ⟨hne, hp⟩ := (hnodup.mem_erase_iff).mp hp
    exact (List.mem_cons.mp hmem).elim hne (hobserved p hp)
  cases s with
  | idle observed => exact ⟨h.1.erase peer, herase observed h.1 h.2⟩
  | manifestPending primary observed =>
    unfold SyncState.onPeerDisconnected
    simp only
    split_ifs with hprimary
    · trivial
    · refine ⟨fun hmem => ?_, h.2.1.erase peer, herase observed h.2.1 h.2.2⟩
      exact (List.mem_cons.mp hmem).elim hprimary h.1
  | fetching f => exact Fetch.served_onPeerDisconnected h peer
  | _ => trivial

theorem served_step (input : SyncInput) (hchunks : s.HasChunks P R (validatorSet, input)) :
    (s.step P R sha256 policy validatorSet input).1.Served (input.goneAfter gone) := by
  cases input with
  | observeProposal committed height proposer =>
    exact served_observeProposal h committed height proposer
  | addCandidate peer =>
    cases s with
    | fetching f => exact Fetch.served_addCandidate h peer
    | _ => exact h.mono fun _ => List.mem_of_mem_filter
  | manifestResponse sender manifest => exact served_onManifestResponse h sender manifest hchunks
  | chunkResponse sender height chunkIdx payload =>
    cases s with
    | fetching f => exact Fetch.served_onChunkResponse h sha256 sender height chunkIdx payload
    | _ => exact h
  | peerDisconnected peer => exact served_onPeerDisconnected h peer

omit h in
/-- A fetch of nothing waits for nothing. -/
theorem hasChunks_of_waits {call : ValidatorSet × SyncInput}
    (hw : (s.next P R sha256 policy call).Waits gone) : s.HasChunks P R call := by
  obtain ⟨vs, input⟩ := call
  cases s with
  | manifestPending primary observed =>
    cases input with
    | manifestResponse sender manifest =>
      cases manifest with
      | none => trivial
      | some m =>
        intro hsender hv hzero
        unfold next SyncState.step SyncState.onManifestResponse at hw
        simp only [hsender, ne_eq, not_true_eq_false, if_false, hv] at hw
        obtain ⟨slot, hs, -⟩ := hw
        obtain ⟨asked, hrounds, -, -⟩ :=
          (Fetch.start m (observed.insert primary)).rounds_schedule
        have hlength := hrounds.length
        have hpos := List.length_pos_of_mem hs
        have hnone : (Fetch.start m (observed.insert primary)).chunks.length = m.chunkCount :=
          List.length_replicate
        omega
    | _ => trivial
  | _ => trivial

end

theorem settles_of_verified {sha256 : Bytes → Bytes32} {s : SyncState} {input : SyncInput}
    (h : ∀ f ∈ s.fetch?, ∀ c ∈ input.chunk?, f.manifest.verifyChunk sha256 c.1 c.2 = .ok ()) :
    s.Settles sha256 input := by
  cases s with
  | fetching f =>
    cases input with
    | chunkResponse sender height chunkIdx payload =>
      intro slot p _ _ _ hpayload hwrong
      exact absurd (h f rfl (chunkIdx, p) (by simp [SyncInput.chunk?, hpayload])) hwrong
    | _ => trivial
  | _ => trivial

theorem hasChunks_of_manifest {P : Primitives} {R : HistoryPrimitives} {s : SyncState}
    {call : ValidatorSet × SyncInput} (h : ∀ m ∈ call.2.manifest?, m.chunkCount ≠ 0) :
    s.HasChunks P R call := by
  obtain ⟨vs, input⟩ := call
  cases s with
  | manifestPending primary observed =>
    cases input with
    | manifestResponse sender manifest =>
      cases manifest with
      | none => trivial
      | some m => exact fun _ _ => h m rfl
    | _ => trivial
  | _ => trivial

/-- As long as no peer is given up for a wrong chunk while it is asked for another one, every state
of a run waits for something that can still come exactly if no empty manifest starts a fetch. -/
theorem waits_iff_hasChunks (P : Primitives) (R : HistoryPrimitives) (sha256 : Bytes → Bytes32)
    (policy : SnapshotPolicy) {calls : List (ValidatorSet × SyncInput)}
    (h : Along (next P R sha256 policy) (fun s call => s.Settles sha256 call.2) .new calls) :
    (∀ k, (run (next P R sha256 policy) .new (calls.take k)).Waits (departed (calls.take k))) ↔
      Along (next P R sha256 policy) (HasChunks P R) .new calls := by
  have himage : ∀ (r : SyncState × List NodeId) (call : ValidatorSet × SyncInput),
      (r.1.next P R sha256 policy call, call.2.goneAfter r.2).1 =
        r.1.next P R sha256 policy call := fun _ _ => rfl
  have hpair := fun k => run_pair (next P R sha256 policy)
    (fun gone (call : ValidatorSet × SyncInput) => call.2.goneAfter gone) .new [] (calls.take k)
  have hkept := (along_image himage (fun s call => s.Settles sha256 call.2) (.new, []) calls).mpr h
  have hiff := Along.iff_of_invariant (P := fun r : SyncState × List NodeId => r.1.Waits r.2)
    (I := fun r : SyncState × List NodeId => r.1.Booked ∧ r.1.Served r.2)
    (Q := fun r call => r.1.HasChunks P R call)
    (fun r hi => hi.2.waits hi.1)
    (fun r call hi hsettles hchunks =>
      ⟨(booked_step_iff hi.1 call.2).mpr hsettles, served_step hi.2 call.2 hchunks⟩)
    (fun r call _ _ hw => hasChunks_of_waits hw) hkept ⟨trivial, .nil, by simp⟩
  rw [← along_image himage (HasChunks P R) (.new, []) calls, ← hiff]
  refine forall_congr' fun k => ?_
  rw [hpair k]
  rfl

end SyncState

namespace Sample

def chunked (n : ℕ) : SnapshotManifest :=
  { snapshotOf changing with
    chunkCount := n
    chunkHashes := List.replicate n (lengthHash []) }

/-- Peer 2 has a manifest without chunks. -/
def emptyFetch : List (ValidatorSet × SyncInput) :=
  [.observeProposal 0 50 2, .manifestResponse 2 (some (chunked 0))].map fun input =>
    (validators, input)

/-- Peer 2 is asked for both chunks, sends a wrong first one and leaves; peer 3 has the right
first one. -/
def strayFetch : List (ValidatorSet × SyncInput) :=
  [.observeProposal 0 50 2, .observeProposal 0 50 3, .manifestResponse 2 (some (chunked 2)),
    .chunkResponse 2 (chunked 2).height 0 (some [1]),
    .chunkResponse 3 (chunked 2).height 0 (some []),
    .peerDisconnected 2].map fun input => (validators, input)

/-- The first fetch asks for nothing, the second one a peer that has gone. -/
theorem fetches_wait_for_nothing :
    ¬ (run (SyncState.next timed operatorHash lengthHash everyBlock) .new emptyFetch).Waits
      (departed emptyFetch) ∧
    ¬ (run (SyncState.next timed operatorHash lengthHash everyBlock) .new strayFetch).Waits
      (departed strayFetch) := by
  have hstuck : ∀ calls ∈ [emptyFetch, strayFetch],
      ∃ f ∈ (run (SyncState.next timed operatorHash lengthHash everyBlock) .new calls).fetch?,
        ∀ slot ∈ f.chunks, ∀ peer ∈ slot.asked?, peer ∉ f.candidates := by
    decide +kernel
  have hnot : ∀ calls ∈ [emptyFetch, strayFetch],
      ¬ (run (SyncState.next timed operatorHash lengthHash everyBlock) .new calls).Waits
        (departed calls) := by
    intro calls hcalls
    obtain ⟨f, hf, hidle⟩ := hstuck calls hcalls
    rw [SyncState.fetch?_eq_some.mp hf]
    rintro ⟨slot, hs, peer, hasked, hc, -⟩
    exact hidle slot hs peer (ChunkSlot.asked?_eq_some.mpr hasked) hc
  exact ⟨hnot _ (by simp), hnot _ (by simp)⟩

/-- Peer 2 leaves while it is asked for both chunks, and peer 3 has them. -/
def plainFetch : List (ValidatorSet × SyncInput) :=
  [.observeProposal 0 50 2, .observeProposal 0 50 3, .manifestResponse 2 (some (chunked 2)),
    .peerDisconnected 2, .chunkResponse 3 (chunked 2).height 1 (some [])].map fun input =>
      (validators, input)

theorem plainFetch_waits :
    (run (SyncState.next timed operatorHash lengthHash everyBlock) .new
      (plainFetch.take 4)).Waits (departed (plainFetch.take 4)) := by
  have hright : Along (SyncState.next timed operatorHash lengthHash everyBlock)
      (fun s call => ∀ f ∈ s.fetch?, ∀ c ∈ call.2.chunk?,
        f.manifest.verifyChunk lengthHash c.1 c.2 = .ok ()) .new plainFetch := by
    decide +kernel
  have hchunks : ∀ call ∈ plainFetch, ∀ m ∈ call.2.manifest?, m.chunkCount ≠ 0 := by
    decide +kernel
  have hwaits := (SyncState.waits_iff_hasChunks timed operatorHash lengthHash everyBlock
    (hright.mono fun s call h => SyncState.settles_of_verified h)).mpr
    ((Along.of_forall hchunks).mono fun s call h => SyncState.hasChunks_of_manifest h)
  exact hwaits 4

end Sample

end Boule
