import Boule.Node.FetchOutcomes
import Mathlib.Algebra.Order.BigOperators.Group.Finset

/-! How many chunks a snapshot fetch asks for. -/
namespace Boule

def SnapshotSyncAction.chunkAsked? : SnapshotSyncAction → Option ℕ
  | .sendChunkRequest _ _ chunkIdx => some chunkIdx
  | _ => none

/-- The chunks asked for in a run, as often as they are. -/
def SyncLog.chunksAsked (log : SyncLog) : List ℕ :=
  log.emitted.filterMap SnapshotSyncAction.chunkAsked?

/-- What a call of the scheduling loop may do: the requests are for pending chunks, of candidates
that have not failed them, and nothing else changes. -/
structure Fetch.Scheduling (f g : Fetch) (actions : List SnapshotSyncAction) : Prop where
  ends : ∀ idx peer, ¬ g.Asks idx peer
  length : g.chunks.length = f.chunks.length
  requests : ∀ a ∈ actions, ∃ idx slot peer, a = .sendChunkRequest peer f.manifest.height idx ∧
    f.chunks[idx]? = some slot ∧ slot.status = .pending ∧ peer ∈ f.candidates ∧
    peer ∉ slot.tried ∧ g.chunks[idx]? = some { slot with status := .inFlight peer }
  slots : ∀ idx slot, f.chunks[idx]? = some slot → g.chunks[idx]? = some slot ∨
    slot.status = .pending ∧ ∃ peer, .sendChunkRequest peer f.manifest.height idx ∈ actions ∧
      g.chunks[idx]? = some { slot with status := .inFlight peer }

/-- A chunk has been asked for once for every attempt that has failed, and once more unless it
waits for the next one. -/
structure Fetch.Accounted (f : Fetch) (asked : List ℕ) : Prop where
  length : f.chunks.length = f.manifest.chunkCount
  inRange : ∀ idx ∈ asked, idx < f.chunks.length
  slots : ∀ (idx : ℕ) (slot : ChunkSlot), f.chunks[idx]? = some slot →
    (asked.count idx = slot.attempts + if slot.status = .pending then 0 else 1) ∧
      slot.attempts < perChunkRetryBudget

/-- Nothing is asked for before a manifest is accepted, and its chunks only within the budget. -/
def SyncLog.InBudget (log : SyncLog) : Prop :=
  (log.accepted = [] ∧ log.chunksAsked = []) ∨
    ∃ m, log.accepted = [m] ∧ (∀ idx ∈ log.chunksAsked, idx < m.chunkCount) ∧
      ∀ idx, log.chunksAsked.count idx ≤ perChunkRetryBudget

/-- The requests of a run, by the state that it ends in. -/
inductive SyncState.Counted : SyncState × SyncLog → Prop
  | seeking {s : SyncState} {log : SyncLog} (seeking : s.Seeking) (accepted : log.accepted = [])
    (asked : log.chunksAsked = []) : Counted (s, log)
  | fetching {f : Fetch} {log : SyncLog} (accepted : log.accepted = [f.manifest])
    (accounted : f.Accounted log.chunksAsked) : Counted (.fetching f, log)
  | ended {s : SyncState} {log : SyncLog} (ended : s = .done ∨ s = .aborted)
    (budget : log.InBudget) : Counted (s, log)

namespace Fetch

theorem scheduling (f : Fetch) : f.Scheduling f.schedule.1 f.schedule.2 := by
  obtain ⟨asked, hrounds, hactions, hend⟩ := f.rounds_schedule
  refine ⟨hend, hrounds.length, ?_, ?_⟩
  · intro a ha
    rw [hactions] at ha
    obtain ⟨⟨idx, peer⟩, hasked, rfl⟩ := List.mem_map.mp ha
    have hlt : idx < f.chunks.length := hrounds.lt _ hasked
    have hslot := List.getElem?_eq_getElem hlt
    obtain ⟨slot', hslot', hsched⟩ := hrounds.scheduled hslot
    refine ⟨idx, f.chunks[idx], peer, rfl, hslot, ?_⟩
    cases hsched with
    | kept idle => exact absurd rfl (idle _ hasked)
    | sent p hpending hcandidate huntried once =>
      have hmem : (idx, peer) ∈ asked.filter fun a => a.1 = idx :=
        List.mem_filter.mpr ⟨hasked, decide_eq_true rfl⟩
      rw [once, List.mem_singleton] at hmem
      obtain rfl := (Prod.mk.inj hmem).2
      exact ⟨hpending, hcandidate, huntried, hslot'⟩
  · intro idx slot hslot
    obtain ⟨slot', hslot', hsched⟩ := hrounds.scheduled hslot
    cases hsched with
    | kept idle => exact .inl hslot'
    | sent peer hpending hcandidate huntried once =>
      refine .inr ⟨hpending, peer, ?_, hslot'⟩
      have hmem : (idx, peer) ∈ asked.filter fun a => a.1 = idx := by
        rw [once]
        exact List.mem_singleton_self _
      rw [hactions]
      exact List.mem_map_of_mem (List.mem_of_mem_filter hmem)

section
variable {sha256 : Bytes → Bytes32} {f g : Fetch} {chunks : List ℕ}

theorem Accounted.moved {input : SyncInput} (h : f.Accounted chunks)
    (hm : Moved sha256 f input g) : g.Accounted chunks where
  length := by rw [hm.length, hm.manifest, h.length]
  inRange := by
    rw [hm.length]
    exact h.inRange
  slots := by
    intro idx slot' hslot'
    have hlt : idx < f.chunks.length := hm.length ▸ (List.getElem?_eq_some_iff.mp hslot').1
    have hslot := List.getElem?_eq_getElem hlt
    obtain ⟨found, hfound, hstep⟩ := hm.slots idx f.chunks[idx] hslot
    obtain rfl := Option.some.inj (hslot'.symm.trans hfound)
    obtain ⟨hcount, hattempts⟩ := h.slots idx _ hslot
    cases hstep with
    | kept => exact ⟨hcount, hattempts⟩
    | failed hasked left =>
      simp only [hasked, reduceCtorEq, if_false] at hcount
      exact ⟨by simpa [ChunkSlot.fail] using hcount, left⟩
    | received hasked answer verified =>
      simp only [hasked, reduceCtorEq, if_false] at hcount
      exact ⟨by simpa using hcount, hattempts⟩

theorem Accounted.rounds {asked : List (ℕ × NodeId)} (h : f.Accounted chunks)
    (hr : Rounds f asked g) : g.Accounted (chunks ++ asked.map Prod.fst) where
  length := by rw [hr.length, hr.manifest, h.length]
  inRange := by
    intro idx hidx
    rw [hr.length]
    rcases List.mem_append.mp hidx with hidx | hidx
    · exact h.inRange idx hidx
    · obtain ⟨a, ha, rfl⟩ := List.mem_map.mp hidx
      exact hr.lt a ha
  slots := by
    intro idx slot' hslot'
    have hlt : idx < f.chunks.length := hr.length ▸ (List.getElem?_eq_some_iff.mp hslot').1
    have hslot := List.getElem?_eq_getElem hlt
    obtain ⟨found, hfound, hsched⟩ := hr.scheduled hslot
    obtain rfl := Option.some.inj (hslot'.symm.trans hfound)
    obtain ⟨hcount, hattempts⟩ := h.slots idx _ hslot
    rw [List.count_append]
    cases hsched with
    | kept idle =>
      have hnone : (asked.map Prod.fst).count idx = 0 := by
        refine List.count_eq_zero.mpr fun hmem => ?_
        obtain ⟨a, ha, he⟩ := List.mem_map.mp hmem
        exact idle a ha he
      exact ⟨by rw [hnone]; exact hcount, hattempts⟩
    | sent peer hpending candidate untried once =>
      have hone : (asked.map Prod.fst).count idx = 1 := by
        have hlength := congrArg List.length once
        rw [← List.countP_eq_length_filter] at hlength
        rw [List.count, List.countP_map]
        refine (List.countP_congr fun a _ => ?_).trans hlength
        simp
      rw [hpending, if_pos rfl] at hcount
      exact ⟨by rw [hone, hcount]; simp, hattempts⟩

theorem accounted_start (m : SnapshotManifest) (peers : List NodeId) :
    (start m peers).Accounted [] where
  length := List.length_replicate
  inRange := fun idx h => by cases h
  slots := by
    intro idx slot hslot
    obtain rfl := List.eq_of_mem_replicate (List.mem_of_getElem? hslot)
    exact ⟨rfl, by decide⟩

/-- The last attempt of a chunk is asked for within the budget. -/
theorem Accounted.count_le (h : f.Accounted chunks) (idx : ℕ) :
    chunks.count idx ≤ perChunkRetryBudget := by
  cases hslot : f.chunks[idx]? with
  | none =>
    have hnone : idx ∉ chunks := fun hmem =>
      absurd (h.inRange idx hmem) (not_lt.mpr (List.getElem?_eq_none_iff.mp hslot))
    rw [List.count_eq_zero.mpr hnone]
    exact Nat.zero_le _
  | some slot =>
    obtain ⟨hcount, hattempts⟩ := h.slots idx slot hslot
    split_ifs at hcount <;> omega

end

end Fetch

namespace SyncState

section
variable {P : Primitives} {R : HistoryPrimitives} {sha256 : Bytes → Bytes32}
  {policy : SnapshotPolicy} {log : SyncLog} {r : SyncState × List SnapshotSyncAction}

theorem chunksAsked_after (log : SyncLog) (accepted : Option SnapshotManifest)
    (sent : Option Bytes) (actions : List SnapshotSyncAction) :
    (log.after accepted sent actions).chunksAsked =
      log.chunksAsked ++ actions.filterMap SnapshotSyncAction.chunkAsked? :=
  List.filterMap_append

theorem chunksAsked_after_requests (log : SyncLog) (accepted : Option SnapshotManifest)
    (sent : Option Bytes) (asked : List (ℕ × NodeId)) (height : ℕ) :
    (log.after accepted sent
      (asked.map fun a => .sendChunkRequest a.2 height a.1)).chunksAsked =
        log.chunksAsked ++ asked.map Prod.fst := by
  rw [chunksAsked_after, List.filterMap_map, ← List.filterMap_eq_map]
  rfl

/-- Actions that ask for no chunk leave the log of requests as it is. -/
theorem chunksAsked_after_none {actions : List SnapshotSyncAction}
    (h : ∀ a ∈ actions, a.chunkAsked? = none) (log : SyncLog)
    (accepted : Option SnapshotManifest) (sent : Option Bytes) :
    (log.after accepted sent actions).chunksAsked = log.chunksAsked := by
  rw [chunksAsked_after, List.filterMap_eq_nil_iff.mpr h, List.append_nil]

theorem inBudget_of_accounted {f : Fetch} (accepted : log.accepted = [f.manifest])
    (h : f.Accounted log.chunksAsked) : log.InBudget :=
  .inr ⟨f.manifest, accepted, fun idx hidx => h.length ▸ h.inRange idx hidx, h.count_le⟩

theorem counted_outcome {f : Fetch} {input : SyncInput} (accepted : log.accepted = [f.manifest])
    (accounted : f.Accounted log.chunksAsked) (h : f.Outcome sha256 input r) (sent : Option Bytes) :
    Counted (r.1, log.after none sent r.2) := by
  have haccepted : log.accepted ++ [] = [f.manifest] := by rw [accepted, List.append_nil]
  cases h with
  | aborted reason =>
    refine .ended (.inr rfl) (inBudget_of_accounted (f := f) haccepted ?_)
    rw [chunksAsked_after_none (List.forall_mem_singleton.mpr rfl)]
    exact accounted
  | finished moved all =>
    refine .ended (.inl rfl) (inBudget_of_accounted (f := f) haccepted ?_)
    rw [chunksAsked_after_none (List.forall_mem_singleton.mpr rfl)]
    exact accounted
  | waiting moved rounds =>
    refine .fetching ?_ ?_
    · rw [rounds.manifest, moved.manifest]
      exact haccepted
    · rw [chunksAsked_after_requests]
      exact (accounted.moved moved).rounds rounds

theorem counted_sought {s : SyncState} {call : ValidatorSet × SyncInput}
    (accepted : log.accepted = []) (asked : log.chunksAsked = []) (h : s.Sought P R call r)
    (sent : Option Bytes) : Counted (r.1, log.after (s.accepted? P R call) sent r.2) := by
  cases h with
  | seeking hnone seeking asks =>
    rw [hnone]
    refine .seeking seeking ((List.append_nil _).trans accepted) ?_
    rw [chunksAsked_after_none, asked]
    intro a ha
    obtain ⟨peer, rfl⟩ := asks a ha
    rfl
  | aborted hnone reason =>
    rw [hnone]
    refine .ended (.inr rfl) (.inl ⟨(List.append_nil _).trans accepted, ?_⟩)
    rw [chunksAsked_after_none (List.forall_mem_singleton.mpr rfl), asked]
  | @started m peers g requests haccepted verified rounds =>
    rw [haccepted]
    refine .fetching ?_ ?_
    · rw [rounds.manifest]
      show log.accepted ++ [m] = [m]
      rw [accepted, List.nil_append]
    · rw [chunksAsked_after_requests, asked]
      exact (Fetch.accounted_start m peers).rounds rounds

theorem counted_record {r : SyncState × SyncLog} (h : Counted r)
    (call : ValidatorSet × SyncInput) : Counted (record P R sha256 policy r call) := by
  cases h with
  | seeking seeking accepted asked =>
    exact counted_sought accepted asked (sought_step seeking call) _
  | fetching accepted accounted =>
    exact counted_outcome accepted accounted (outcome_step _ call.2) _
  | @ended s log ended budget =>
    rw [record_of_ended ended]
    refine .ended ended ?_
    have hasked : (log.after none (call.2.chunk?.map Prod.snd) []).chunksAsked = log.chunksAsked :=
      chunksAsked_after_none (fun a ha => by cases ha) log _ _
    have haccepted : (log.after none (call.2.chunk?.map Prod.snd) []).accepted = log.accepted :=
      List.append_nil _
    unfold SyncLog.InBudget
    rw [hasked, haccepted]
    exact budget

theorem Counted.inBudget {r : SyncState × SyncLog} (h : Counted r) : r.2.InBudget := by
  cases h with
  | seeking _ accepted asked => exact .inl ⟨accepted, asked⟩
  | fetching accepted accounted => exact inBudget_of_accounted accepted accounted
  | ended _ budget => exact budget

theorem inBudget_recorded (calls : List (ValidatorSet × SyncInput)) :
    (recorded P R sha256 policy calls).2.InBudget := by
  have hnew : Counted (.new, .empty) := .seeking trivial rfl rfl
  exact (run_invariant (I := Counted) (fun _ call h => counted_record h call) hnew calls).inBudget

end

/-- A list of numbers below `n`, none of which it has more than `b` times. -/
theorem length_le_of_count_le {l : List ℕ} {n b : ℕ} (hn : ∀ i ∈ l, i < n)
    (hb : ∀ i, l.count i ≤ b) : l.length ≤ b * n := by
  have hcard : l.toFinset.card ≤ n := by
    rw [← Finset.card_range n]
    exact Finset.card_le_card fun i hi => Finset.mem_range.mpr (hn i (List.mem_toFinset.mp hi))
  calc l.length = ∑ i ∈ l.toFinset, l.count i := (List.sum_toFinset_count_eq_length l).symm
    _ ≤ l.toFinset.card • b := Finset.sum_le_card_nsmul _ _ _ fun i _ => hb i
    _ ≤ b * n := by
      rw [Nat.nsmul_eq_mul, Nat.mul_comm]
      exact Nat.mul_le_mul_left b hcard

/-- The scheduling loop ends, whatever stops it, and does what it may; and a run asks for a chunk
within its budget, so that a fetch makes no more requests than the budget allows for all of its
chunks. -/
theorem requests_in_budget (P : Primitives) (R : HistoryPrimitives) (sha256 : Bytes → Bytes32)
    (policy : SnapshotPolicy) :
    WellFounded (fun g f : Fetch =>
      ∃ idx peer, f.nextRequest = some (idx, peer) ∧ g = f.request idx peer) ∧
    (∀ f : Fetch, f.Scheduling f.schedule.1 f.schedule.2) ∧
    ∀ calls, let log := (recorded P R sha256 policy calls).2
      (∀ idx, log.chunksAsked.count idx ≤ perChunkRetryBudget) ∧
      ((log.accepted = [] ∧ log.chunksAsked = []) ∨
        ∃ m, log.accepted = [m] ∧ log.chunksAsked.length ≤ perChunkRetryBudget * m.chunkCount) := by
  refine ⟨Fetch.wellFounded_request, Fetch.scheduling, fun calls => ?_⟩
  have hbudget : (recorded P R sha256 policy calls).2.InBudget := inBudget_recorded calls
  rcases hbudget with ⟨haccepted, hasked⟩ | ⟨m, haccepted, hrange, hcount⟩
  · refine ⟨fun idx => ?_, .inl ⟨haccepted, hasked⟩⟩
    rw [hasked]
    exact Nat.zero_le _
  · exact ⟨hcount, .inr ⟨m, haccepted, length_le_of_count_le hrange hcount⟩⟩

end SyncState

end Boule
