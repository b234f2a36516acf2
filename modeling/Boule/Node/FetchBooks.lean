import Boule.Node.Joining
import Mathlib.Algebra.BigOperators.Group.Finset.Basic
import Mathlib.Algebra.Order.BigOperators.Group.Finset

/-! The books of a snapshot fetch: which peer is asked for how many chunks. -/
namespace Boule

namespace ChunkSlot

/-- The peer that is being asked for the chunk. -/
def asked? (slot : ChunkSlot) : Option NodeId :=
  match slot.status with
  | .inFlight peer => some peer
  | _ => none

theorem asked?_eq_some {slot : ChunkSlot} {peer : NodeId} :
    slot.asked? = some peer ↔ slot.status = .inFlight peer := by
  unfold asked?
  cases slot.status <;> simp

theorem asked?_eq_none {slot : ChunkSlot} (h : ∀ peer, slot.status ≠ .inFlight peer) :
    slot.asked? = none :=
  Option.eq_none_iff_forall_ne_some.mpr fun peer hs => h peer (asked?_eq_some.mp hs)

end ChunkSlot

namespace Fetch

/-- The number of chunks that the peer is being asked for. -/
def inFlightAt (f : Fetch) (peer : NodeId) : ℕ :=
  f.chunks.countP fun slot => slot.status = .inFlight peer

/-- The number of chunks that some peer is being asked for. -/
def inFlight (f : Fetch) : ℕ := f.chunks.countP fun slot => slot.asked?.isSome

/-- The requests in flight as the counter of the peer says. -/
def counter (f : Fetch) (peer : NodeId) : ℕ := (f.inFlightPerPeer.get? peer).getD 0

structure Booked (f : Fetch) : Prop where
  counter : ∀ peer, f.counter peer = f.inFlightAt peer
  asked : ∀ slot ∈ f.chunks, ∀ peer, slot.status = .inFlight peer →
    peer ∈ f.candidates ∧ peer ∉ slot.tried
  total : f.inFlight ≤ maxConcurrentChunkRequests
  perPeer : ∀ peer, f.inFlightAt peer ≤ perPeerChunkConcurrency
  nodup : f.candidates.Nodup

/-- A peer that is given up for a wrong chunk is asked for no other one, unless the whole fetch is
given up. -/
def Settles (sha256 : Bytes → Bytes32) (f : Fetch) (sender : NodeId) (height chunkIdx : ℕ)
    (payload : Option Bytes) : Prop :=
  ∀ slot p, height = f.manifest.height → f.chunks[chunkIdx]? = some slot →
    slot.status = .inFlight sender → payload = some p →
    f.manifest.verifyChunk sha256 chunkIdx p ≠ .ok () →
    checkChunkAbort (slot.fail sender) chunkIdx (f.candidates.filter (· ≠ sender)) = none →
    f.inFlightAt sender = 1

end Fetch

namespace SyncState

def fetch? : SyncState → Option Fetch
  | .fetching f => some f
  | _ => none

theorem fetch?_eq_some {s : SyncState} {f : Fetch} : s.fetch? = some f ↔ s = .fetching f := by
  cases s <;> simp [fetch?]

def Booked : SyncState → Prop
  | .fetching f => f.Booked
  | _ => True

def Settles (sha256 : Bytes → Bytes32) : SyncState → SyncInput → Prop
  | .fetching f, .chunkResponse sender height chunkIdx payload =>
    f.Settles sha256 sender height chunkIdx payload
  | _, _ => True

end SyncState

/-! ### Counting -/

theorem countP_set_add {α : Type} (p : α → Bool) {l : List α} {i : ℕ} {a : α}
    (h : l[i]? = some a) (b : α) :
    (l.set i b).countP p + (if p a then 1 else 0) = l.countP p + if p b then 1 else 0 := by
  obtain ⟨hi, ha⟩ := List.getElem?_eq_some_iff.mp h
  have hle : (if p a then 1 else 0) ≤ l.countP p := by
    rw [← ha]
    exact List.boole_getElem_le_countP hi
  rw [List.countP_set hi, ha]
  omega

/-- A list whose elements are counted by the table is no longer than the counters' sum. -/
theorem Table.length_le_sum {K : Type} [DecidableEq K] (t : Table K ℕ) {l : List K}
    (h : ∀ k, l.count k ≤ (t.get? k).getD 0) : l.length ≤ (t.toList.map Prod.snd).sum := by
  have hkeys : ∀ k ∈ (l : Multiset K), k ∈ (t.toList.map Prod.fst).toFinset := by
    intro k hk
    have hpos := (List.count_pos_iff.mpr (Multiset.mem_coe.mp hk)).trans_le (h k)
    cases hv : t.get? k with
    | none => simp [hv] at hpos
    | some v =>
      rw [List.mem_toFinset, List.mem_map]
      exact ⟨(k, v), (t.mem_toList k v).mpr hv, rfl⟩
  have hsum := Multiset.sum_count_eq_card hkeys
  rw [List.sum_toFinset _ t.nodup_toList, List.map_map, Multiset.coe_card] at hsum
  rw [← hsum]
  apply List.sum_le_sum
  rintro ⟨k, v⟩ he
  have hk := h k
  rw [(t.mem_toList k v).mp he] at hk
  rw [Function.comp_apply, Multiset.coe_count]
  exact hk

namespace Fetch

theorem count_asked (f : Fetch) (peer : NodeId) :
    (f.chunks.filterMap ChunkSlot.asked?).count peer = f.inFlightAt peer := by
  rw [List.count_filterMap, inFlightAt]
  congr 1
  funext slot
  rw [Bool.eq_iff_iff, beq_iff_eq, ChunkSlot.asked?_eq_some, decide_eq_true_iff]

theorem length_asked (f : Fetch) : (f.chunks.filterMap ChunkSlot.asked?).length = f.inFlight := by
  rw [List.length_filterMap_eq_countP, inFlight]

theorem inFlightAt_pos {f : Fetch} {slot : ChunkSlot} {peer : NodeId} (h : slot ∈ f.chunks)
    (hs : slot.status = .inFlight peer) : 0 < f.inFlightAt peer :=
  List.countP_pos_iff.mpr ⟨slot, h, decide_eq_true hs⟩

/-- The scheduler's sum misses no request in flight. -/
theorem Booked.inFlight_le_sum {f : Fetch} (h : f.Booked) :
    f.inFlight ≤ (f.inFlightPerPeer.toList.map Prod.snd).sum := by
  rw [← f.length_asked]
  apply Table.length_le_sum
  intro peer
  rw [f.count_asked, ← h.counter peer]
  rfl

theorem inFlightAt_setSlot {f : Fetch} {idx : ℕ} {slot : ChunkSlot}
    (h : f.chunks[idx]? = some slot) (slot' : ChunkSlot) (peer : NodeId) :
    (f.setSlot idx slot').inFlightAt peer + (if slot.status = .inFlight peer then 1 else 0) =
      f.inFlightAt peer + if slot'.status = .inFlight peer then 1 else 0 := by
  have hset := countP_set_add (fun slot => slot.status = .inFlight peer) h slot'
  simp only [decide_eq_true_iff] at hset
  exact hset

theorem inFlight_setSlot {f : Fetch} {idx : ℕ} {slot : ChunkSlot}
    (h : f.chunks[idx]? = some slot) (slot' : ChunkSlot) :
    (f.setSlot idx slot').inFlight + (if slot.asked?.isSome then 1 else 0) =
      f.inFlight + if slot'.asked?.isSome then 1 else 0 :=
  countP_set_add (fun slot : ChunkSlot => slot.asked?.isSome) h slot'

/-! ### Scheduling -/

theorem nextRequest_eq_some {f : Fetch} {idx : ℕ} {peer : NodeId}
    (h : f.nextRequest = some (idx, peer)) :
    ∃ slot, f.chunks[idx]? = some slot ∧ slot.status = .pending ∧ peer ∈ f.candidates ∧
      peer ∉ slot.tried ∧ f.counter peer < perPeerChunkConcurrency := by
  obtain ⟨⟨slot, i⟩, hmem, hnext⟩ := List.exists_of_findSome?_eq_some h
  have hslot := List.mem_zipIdx_iff_getElem?.mp hmem
  by_cases hp : slot.status = .pending
  · simp only [hp, ne_eq, not_true_eq_false, if_false] at hnext
    obtain ⟨peer', hfind, he⟩ := Option.map_eq_some_iff.mp hnext
    obtain ⟨rfl, rfl⟩ := Prod.mk.inj he
    have htest := List.find?_some hfind
    rw [Bool.and_eq_true, decide_eq_true_iff, decide_eq_true_iff] at htest
    exact ⟨slot, hslot, hp, List.mem_of_find?_eq_some hfind, htest.1, htest.2⟩
  · simp only [ne_eq, hp, not_false_eq_true, if_true] at hnext
    cases hnext

theorem request_eq {f : Fetch} {idx : ℕ} {slot : ChunkSlot} (h : f.chunks[idx]? = some slot)
    (peer : NodeId) :
    f.request idx peer =
      { f.setSlot idx { slot with status := .inFlight peer } with
        inFlightPerPeer := f.inFlightPerPeer.insert peer (f.counter peer + 1) } := by
  have hchunks : (f.chunks.modify idx fun slot => { slot with status := .inFlight peer }) =
      f.chunks.set idx { slot with status := .inFlight peer } := by
    apply List.ext_getElem?
    intro i
    rw [List.getElem?_modify, List.getElem?_set]
    by_cases he : idx = i
    · subst he
      have hlt := (List.getElem?_eq_some_iff.mp h).1
      rw [h, if_pos rfl, if_pos hlt]
      simp
    · simp [he]
  unfold request setSlot counter
  rw [hchunks]

theorem counter_request {f : Fetch} (idx : ℕ) (peer peer' : NodeId) :
    (f.request idx peer).counter peer' =
      f.counter peer' + if peer = peer' then 1 else 0 := by
  unfold counter request
  rw [Table.get?_insert]
  by_cases he : peer' = peer
  · subst he
    rw [if_pos rfl, if_pos rfl]
    rfl
  · rw [if_neg he, if_neg (Ne.symm he), Nat.add_zero]

/-- The slots of a fetch after one of them was set. -/
theorem mem_setSlot {f : Fetch} {idx : ℕ} {slot slot' : ChunkSlot}
    (h : slot ∈ (f.setSlot idx slot').chunks) : slot = slot' ∨ slot ∈ f.chunks :=
  (List.mem_or_eq_of_mem_set h).symm

theorem Booked.request {f : Fetch} (h : f.Booked)
    (htotal : (f.inFlightPerPeer.toList.map Prod.snd).sum < maxConcurrentChunkRequests)
    {idx : ℕ} {peer : NodeId} (hnext : f.nextRequest = some (idx, peer)) :
    (f.request idx peer).Booked := by
  obtain ⟨slot, hslot, hpending, hmem, htried, hcount⟩ := nextRequest_eq_some hnext
  have heq := request_eq hslot peer
  have hat : ∀ peer', (f.request idx peer).inFlightAt peer' =
      f.inFlightAt peer' + if peer = peer' then 1 else 0 := by
    intro peer'
    have hset := inFlightAt_setSlot hslot { slot with status := .inFlight peer } peer'
    simp only [hpending, reduceCtorEq, if_false, Nat.add_zero, ChunkStatus.inFlight.injEq] at hset
    rw [heq]
    exact hset
  constructor
  · intro peer'
    rw [counter_request, hat, h.counter]
  · intro slot' hs peer' hp
    rw [heq] at hs ⊢
    rcases mem_setSlot hs with rfl | hs
    · obtain rfl := ChunkStatus.inFlight.inj hp
      exact ⟨hmem, htried⟩
    · exact h.asked slot' hs peer' hp
  · have hset := inFlight_setSlot hslot { slot with status := .inFlight peer }
    have hle := h.inFlight_le_sum
    have hidle : slot.asked? = none := ChunkSlot.asked?_eq_none fun _ hs => by simp [hs] at hpending
    have hasked : ({ slot with status := .inFlight peer } : ChunkSlot).asked? = some peer := rfl
    simp only [hidle, hasked, Option.isSome_none, Bool.false_eq_true, if_false, Nat.add_zero,
      Option.isSome_some, if_true] at hset
    have hreq : (f.request idx peer).inFlight = f.inFlight + 1 := by
      rw [heq]
      exact hset
    omega
  · intro peer'
    rw [hat]
    have hper := h.perPeer peer'
    split_ifs with he
    · subst he
      rw [h.counter] at hcount
      omega
    · exact hper
  · rw [heq]
    exact h.nodup

theorem Booked.scheduleRounds {f : Fetch} (h : f.Booked) (n : ℕ) :
    (f.scheduleRounds n).1.Booked := by
  induction n generalizing f with
  | zero => exact h
  | succ n ih =>
    rw [Fetch.scheduleRounds]
    split_ifs with htotal
    · exact h
    · cases hnext : f.nextRequest with
      | none => exact h
      | some next => exact ih (h.request (not_le.mp htotal) hnext)

theorem Booked.scheduleOrAbort {f : Fetch} (h : f.Booked) : f.scheduleOrAbort.1.Booked := by
  unfold Fetch.scheduleOrAbort
  simp only
  split_ifs
  · trivial
  · exact h.scheduleRounds _

theorem Booked.retry {f : Fetch} (h : f.Booked) (slot : ChunkSlot) (chunkIdx : ℕ) :
    (f.retry slot chunkIdx).1.Booked := by
  unfold Fetch.retry
  split
  · trivial
  · exact h.scheduleOrAbort

theorem Booked.tryFinishOrSchedule {f : Fetch} (h : f.Booked) :
    f.tryFinishOrSchedule.1.Booked := by
  unfold Fetch.tryFinishOrSchedule
  split_ifs
  · trivial
  · exact h.scheduleOrAbort

/-! ### Answers -/

theorem counter_release (f : Fetch) (sender peer : NodeId) :
    (f.release sender).counter peer = f.counter peer - if sender = peer then 1 else 0 := by
  unfold counter release
  cases hc : f.inFlightPerPeer.get? sender with
  | none =>
    by_cases he : sender = peer
    · subst he
      simp [hc]
    · simp [he]
  | some c =>
    simp only [Table.get?_insert]
    by_cases he : peer = sender
    · subst he
      rw [if_pos rfl, if_pos rfl, hc]
      rfl
    · rw [if_neg he, if_neg (Ne.symm he), Nat.sub_zero]

theorem inFlightAt_answered {f : Fetch} {idx : ℕ} {slot slot' : ChunkSlot} {sender : NodeId}
    (hslot : f.chunks[idx]? = some slot) (hs : slot.status = .inFlight sender)
    (hs' : ∀ peer, slot'.status ≠ .inFlight peer) (peer : NodeId) :
    ((f.release sender).setSlot idx slot').inFlightAt peer =
      f.inFlightAt peer - if sender = peer then 1 else 0 := by
  have hset := inFlightAt_setSlot (f := f.release sender) hslot slot' peer
  simp only [hs, hs' peer, if_false, ChunkStatus.inFlight.injEq, Nat.add_zero] at hset
  rw [← Nat.sub_eq_of_eq_add hset.symm]
  rfl

/-- The request for a chunk is over, one way or the other. -/
theorem Booked.answered {f : Fetch} (h : f.Booked) {idx : ℕ} {slot slot' : ChunkSlot}
    {sender : NodeId} (hslot : f.chunks[idx]? = some slot) (hs : slot.status = .inFlight sender)
    (hs' : ∀ peer, slot'.status ≠ .inFlight peer) :
    ((f.release sender).setSlot idx slot').Booked := by
  have hat := inFlightAt_answered hslot hs hs'
  constructor
  · intro peer
    rw [hat, ← h.counter]
    exact f.counter_release sender peer
  · intro slot'' hmem peer hp
    rcases mem_setSlot hmem with rfl | hmem
    · exact absurd hp (hs' peer)
    · exact h.asked slot'' hmem peer hp
  · have hset := inFlight_setSlot (f := f.release sender) hslot slot'
    have hidle := ChunkSlot.asked?_eq_none hs'
    have htotal := h.total
    simp only [hidle, Option.isSome_none, Bool.false_eq_true, if_false, Nat.add_zero] at hset
    have hsame : (f.release sender).inFlight = f.inFlight := rfl
    omega
  · intro peer
    rw [hat]
    have hper := h.perPeer peer
    omega
  · exact h.nodup

/-- The peer is no candidate any more, and its counter goes. -/
def dropped (f : Fetch) (peer : NodeId) : Fetch :=
  { f with
    candidates := f.candidates.filter (· ≠ peer)
    inFlightPerPeer := f.inFlightPerPeer.erase peer }

theorem counter_dropped (f : Fetch) (peer peer' : NodeId) :
    (f.dropped peer).counter peer' = if peer' = peer then 0 else f.counter peer' := by
  unfold counter dropped
  rw [Table.get?_erase]
  split_ifs <;> rfl

/-- A peer may go that is asked for nothing. -/
theorem Booked.dropped {f : Fetch} (h : f.Booked) {peer : NodeId} (h0 : f.inFlightAt peer = 0) :
    (f.dropped peer).Booked := by
  constructor
  · intro peer'
    rw [counter_dropped]
    split_ifs with he
    · subst he
      exact h0.symm
    · exact h.counter peer'
  · intro slot hs peer' hp
    obtain ⟨hmem, htried⟩ := h.asked slot hs peer' hp
    have hpos := inFlightAt_pos (f := f) hs hp
    have hne : peer' ≠ peer := by
      rintro rfl
      omega
    exact ⟨List.mem_filter.mpr ⟨hmem, decide_eq_true hne⟩, htried⟩
  · exact h.total
  · exact h.perPeer
  · exact h.nodup.filter _

/-- Some request is in flight to a peer that is no candidate. -/
def Stray (f : Fetch) : Prop :=
  ∃ slot ∈ f.chunks, ∃ peer, slot.status = .inFlight peer ∧ peer ∉ f.candidates

theorem Stray.not_booked {f : Fetch} (h : f.Stray) : ¬ f.Booked := by
  obtain ⟨slot, hs, peer, hp, hmem⟩ := h
  exact fun hb => hmem (hb.asked slot hs peer hp).1

theorem Stray.request {f : Fetch} (h : f.Stray) {idx : ℕ} {peer : NodeId}
    (hnext : f.nextRequest = some (idx, peer)) : (f.request idx peer).Stray := by
  obtain ⟨slot, hslot, hpending, -⟩ := nextRequest_eq_some hnext
  obtain ⟨slot', hs', peer', hp', hmem⟩ := h
  obtain ⟨i, hi⟩ := List.mem_iff_getElem?.mp hs'
  have hne : idx ≠ i := by
    rintro rfl
    rw [hslot] at hi
    obtain rfl := Option.some.inj hi
    simp [hpending] at hp'
  refine ⟨slot', ?_, peer', hp', hmem⟩
  rw [request_eq hslot]
  apply List.mem_of_getElem? (i := i)
  rw [Fetch.setSlot, List.getElem?_set_ne hne]
  exact hi

theorem Stray.scheduleRounds {f : Fetch} (h : f.Stray) (n : ℕ) : (f.scheduleRounds n).1.Stray := by
  induction n generalizing f with
  | zero => exact h
  | succ n ih =>
    rw [Fetch.scheduleRounds]
    split_ifs
    · exact h
    · cases hnext : f.nextRequest with
      | none => exact h
      | some next => exact ih (h.request hnext)

/-- As long as a request is in flight, the fetch goes on. -/
theorem Stray.scheduleOrAbort {f : Fetch} (h : f.Stray) : ¬ f.scheduleOrAbort.1.Booked := by
  have hg := h.scheduleRounds maxConcurrentChunkRequests
  obtain ⟨slot, hs, peer, hp, -⟩ := hg
  unfold Fetch.scheduleOrAbort
  simp only
  split_ifs with hc
  · simp only [Bool.and_eq_true, Bool.not_eq_true', List.any_eq_false] at hc
    have hidle := hc.1.1 slot hs
    simp [hp] at hidle
  · exact (h.scheduleRounds _).not_booked

/-- A peer that is given up must not be asked for another chunk, unless the fetch ends with it. -/
theorem Booked.giveUp_iff {f : Fetch} (h : f.Booked) {idx : ℕ} {slot : ChunkSlot}
    {sender : NodeId} (hslot : f.chunks[idx]? = some slot)
    (hs : slot.status = .inFlight sender) :
    ((((f.release sender).setSlot idx (slot.fail sender)).dropped sender).retry
        (slot.fail sender) idx).1.Booked ↔
      (checkChunkAbort (slot.fail sender) idx (f.candidates.filter (· ≠ sender)) = none →
        f.inFlightAt sender = 1) := by
  have hidle : ∀ peer, (slot.fail sender).status ≠ .inFlight peer := fun _ hp => by cases hp
  have hpos := inFlightAt_pos (List.mem_of_getElem? hslot) hs
  have hat := inFlightAt_answered hslot hs hidle sender
  rw [if_pos rfl] at hat
  have hcandidates : (((f.release sender).setSlot idx (slot.fail sender)).dropped
      sender).candidates = f.candidates.filter (· ≠ sender) := rfl
  unfold Fetch.retry
  rw [hcandidates]
  cases checkChunkAbort (slot.fail sender) idx (f.candidates.filter (· ≠ sender)) with
  | some reason =>
    refine iff_of_true trivial fun hnone => ?_
    cases hnone
  | none =>
    constructor
    · intro hb _
      by_contra hone
      have hmore : 0 < ((f.release sender).setSlot idx (slot.fail sender)).inFlightAt sender := by
        omega
      obtain ⟨other, hother, ho⟩ := List.countP_pos_iff.mp hmore
      have hstray : (((f.release sender).setSlot idx (slot.fail sender)).dropped sender).Stray :=
        ⟨other, hother, sender, of_decide_eq_true ho, by simp [Fetch.dropped]⟩
      exact hstray.scheduleOrAbort hb
    · intro hone
      have hone' := hone rfl
      apply Booked.scheduleOrAbort
      apply (h.answered hslot hs hidle).dropped
      omega

/-- A chunk that was asked for is answered: the books are kept, unless its sender is given up while
it is asked for another one. -/
theorem Booked.takeChunk_iff {f : Fetch} (h : f.Booked) {idx : ℕ} {slot : ChunkSlot}
    {sender : NodeId} (hslot : f.chunks[idx]? = some slot) (hs : slot.status = .inFlight sender)
    (sha256 : Bytes → Bytes32) (payload : Option Bytes) :
    ((f.release sender).takeChunk sha256 slot sender idx payload).1.Booked ↔
      ∀ p, payload = some p → f.manifest.verifyChunk sha256 idx p ≠ .ok () →
        checkChunkAbort (slot.fail sender) idx (f.candidates.filter (· ≠ sender)) = none →
        f.inFlightAt sender = 1 := by
  cases payload with
  | none =>
    refine iff_of_true ((h.answered hslot hs fun _ hp => by cases hp).retry _ _) ?_
    intro p hp
    cases hp
  | some p =>
    unfold Fetch.takeChunk
    cases hv : f.manifest.verifyChunk sha256 idx p with
    | ok u =>
      have hv' : (f.release sender).manifest.verifyChunk sha256 idx p = .ok u := hv
      simp only [hv']
      refine iff_of_true ?_ ?_
      · apply Booked.tryFinishOrSchedule
        exact h.answered hslot hs fun _ hp => by cases hp
      · intro p' hp' hne
        obtain rfl := Option.some.inj hp'
        exact absurd hv hne
    | error e =>
      have hv' : (f.release sender).manifest.verifyChunk sha256 idx p = .error e := hv
      simp only [hv']
      refine (h.giveUp_iff hslot hs).trans ⟨fun hgive p' _ _ => hgive, fun hall => ?_⟩
      exact hall p rfl (by simp [hv])

theorem Booked.onChunkResponse_iff {f : Fetch} (h : f.Booked) (sha256 : Bytes → Bytes32)
    (sender : NodeId) (height chunkIdx : ℕ) (payload : Option Bytes) :
    (f.onChunkResponse sha256 sender height chunkIdx payload).1.Booked ↔
      f.Settles sha256 sender height chunkIdx payload := by
  unfold Fetch.onChunkResponse
  by_cases hh : height ≠ f.manifest.height
  · rw [if_pos hh]
    exact iff_of_true h fun _ _ hheight => absurd hheight hh
  rw [if_neg hh]
  cases hslot : f.chunks[chunkIdx]? with
  | none =>
    refine iff_of_true h ?_
    intro slot p _ hsome
    rw [hslot] at hsome
    cases hsome
  | some slot =>
    by_cases hs : slot.status ≠ .inFlight sender
    · simp only [if_pos hs]
      refine iff_of_true h ?_
      intro slot' p _ hsome hs'
      rw [hslot] at hsome
      obtain rfl := Option.some.inj hsome
      exact absurd hs' hs
    · have hs' := not_not.mp hs
      simp only [if_neg hs]
      rw [h.takeChunk_iff hslot hs']
      constructor
      · intro hone slot' p _ hsome _
        rw [hslot] at hsome
        obtain rfl := Option.some.inj hsome
        exact hone p
      · exact fun hset p => hset slot p (not_not.mp hh) hslot hs'

/-! ### Peers that come and go -/

/-- What the loss of the peer makes of a chunk. -/
def lostFrom (peer : NodeId) (slot : ChunkSlot) : ChunkSlot :=
  if slot.status = .inFlight peer then slot.fail peer else slot

theorem dropPeerFrom_eq {peer : NodeId} {f g : Fetch} {asked rest : List ChunkSlot}
    (hf : f.chunks = asked ++ rest)
    (hg : f.dropPeerFrom peer (rest.zipIdx asked.length) = (g, none)) :
    g = { f with chunks := asked ++ rest.map (lostFrom peer) } := by
  induction rest generalizing f asked with
  | nil =>
    obtain ⟨rfl, -⟩ := Prod.mk.inj hg
    rw [List.map_nil, ← hf]
  | cons slot rest ih =>
    rw [List.zipIdx_cons, dropPeerFrom] at hg
    have hlen : (asked ++ [lostFrom peer slot]).length = asked.length + 1 := by simp
    by_cases hs : slot.status = .inFlight peer
    · rw [if_neg (not_not.mpr hs)] at hg
      have hset : (f.setSlot asked.length (slot.fail peer)).chunks =
          (asked ++ [lostFrom peer slot]) ++ rest := by
        rw [Fetch.setSlot, hf, lostFrom, if_pos hs]
        simp
      simp only at hg
      split at hg
      · cases (Prod.mk.inj hg).2
      · rw [← hlen] at hg
        rw [ih hset hg]
        simp [Fetch.setSlot]
    · rw [if_pos hs, ← hlen] at hg
      have hkeep : lostFrom peer slot = slot := if_neg hs
      rw [ih (by rw [hf, hkeep]; simp) hg]
      simp

theorem status_lostFrom {peer peer' : NodeId} {slot : ChunkSlot} :
    (lostFrom peer slot).status = .inFlight peer' ↔
      slot.status = .inFlight peer' ∧ peer' ≠ peer := by
  unfold lostFrom
  split_ifs with hs
  · refine iff_of_false (fun hp => by cases hp) ?_
    rintro ⟨hp, hne⟩
    rw [hs] at hp
    exact hne (ChunkStatus.inFlight.inj hp).symm
  · constructor
    · intro hp
      refine ⟨hp, ?_⟩
      rintro rfl
      exact hs hp
    · exact And.left

/-- A peer is lost, with everything it was asked for. -/
theorem Booked.lost {f : Fetch} (h : f.Booked) (peer : NodeId) :
    ({ f.dropped peer with chunks := f.chunks.map (lostFrom peer) } : Fetch).Booked := by
  have hat : ∀ peer', ({ f.dropped peer with chunks := f.chunks.map (lostFrom peer) } :
      Fetch).inFlightAt peer' = if peer' = peer then 0 else f.inFlightAt peer' := by
    intro peer'
    unfold inFlightAt
    rw [List.countP_map]
    split_ifs with he
    · rw [List.countP_eq_zero]
      intro slot _ hp
      exact (status_lostFrom.mp (of_decide_eq_true hp)).2 he
    · apply List.countP_congr
      intro slot _
      rw [Function.comp_apply, decide_eq_true_iff, decide_eq_true_iff, status_lostFrom,
        and_iff_left he]
  constructor
  · intro peer'
    rw [hat, ← h.counter]
    exact f.counter_dropped peer peer'
  · intro slot hs peer' hp
    obtain ⟨slot, hslot, rfl⟩ := List.mem_map.mp hs
    obtain ⟨hp, hne⟩ := status_lostFrom.mp hp
    obtain ⟨hmem, htried⟩ := h.asked slot hslot peer' hp
    refine ⟨List.mem_filter.mpr ⟨hmem, decide_eq_true hne⟩, ?_⟩
    rw [lostFrom, if_neg fun he => hne (ChunkStatus.inFlight.inj (hp.symm.trans he))]
    exact htried
  · refine le_trans ?_ h.total
    unfold inFlight
    rw [List.countP_map]
    apply List.countP_mono_left
    intro slot _ hasked
    obtain ⟨peer', hp⟩ := Option.isSome_iff_exists.mp hasked
    have hp' := (status_lostFrom.mp (ChunkSlot.asked?_eq_some.mp hp)).1
    rw [ChunkSlot.asked?_eq_some.mpr hp']
    rfl
  · intro peer'
    rw [hat]
    split_ifs
    · exact Nat.zero_le _
    · exact h.perPeer peer'
  · exact h.nodup.filter _

theorem Booked.onPeerDisconnected {f : Fetch} (h : f.Booked) (peer : NodeId) :
    (f.onPeerDisconnected peer).1.Booked := by
  unfold Fetch.onPeerDisconnected
  by_cases hp : peer ∉ f.candidates
  · rw [if_pos hp]
    exact h
  · rw [if_neg hp]
    simp only
    split
    · trivial
    · rename_i g hg
      have hlost : g = { f.dropped peer with chunks := [] ++ f.chunks.map (lostFrom peer) } :=
        dropPeerFrom_eq rfl hg
      rw [hlost]
      exact (h.lost peer).scheduleOrAbort

theorem Booked.addCandidate {f : Fetch} (h : f.Booked) (peer : NodeId) :
    (f.addCandidate peer).1.Booked := by
  unfold Fetch.addCandidate
  by_cases hp : peer ∈ f.candidates
  · simp only [if_pos hp]
    exact h.scheduleRounds _
  · simp only [if_neg hp]
    apply Booked.scheduleRounds
    constructor
    · intro peer'
      refine Eq.trans ?_ (h.counter peer')
      cases hc : f.inFlightPerPeer.containsKey peer with
      | true => rfl
      | false =>
        have hnone := (Table.containsKey_eq_false_iff _ _).mp hc
        simp only [Fetch.counter, Bool.false_eq_true, if_false, Table.get?_insert]
        split_ifs with he
        · rw [he, hnone]
          rfl
        · rfl
    · intro slot hs peer' hp'
      obtain ⟨hmem, htried⟩ := h.asked slot hs peer' hp'
      exact ⟨List.mem_append_left _ hmem, htried⟩
    · exact h.total
    · exact h.perPeer
    · exact List.nodup_append.mpr ⟨h.nodup, List.nodup_singleton peer, fun a ha b hb => by
        obtain rfl := List.mem_singleton.mp hb
        rintro rfl
        exact hp ha⟩

theorem getD_foldl_insert_zero {peers : List NodeId} {t : Table NodeId ℕ} (peer : NodeId)
    (h : (t.get? peer).getD 0 = 0) :
    (Table.get? (peers.foldl (fun t p => t.insert p 0) t) peer).getD 0 = 0 := by
  induction peers generalizing t with
  | nil => exact h
  | cons p peers ih =>
    apply ih
    rw [Table.get?_insert]
    split_ifs
    · rfl
    · exact h

theorem booked_start (m : SnapshotManifest) (peers : List NodeId) : (start m peers).Booked := by
  have hfresh : ∀ slot ∈ (start m peers).chunks, ∀ peer, slot.status ≠ .inFlight peer := by
    intro slot hs peer hp
    obtain rfl := List.eq_of_mem_replicate hs
    cases hp
  have hat : ∀ peer, (start m peers).inFlightAt peer = 0 := fun peer =>
    List.countP_eq_zero.mpr fun slot hs hp => hfresh slot hs peer (of_decide_eq_true hp)
  constructor
  · intro peer
    rw [hat]
    apply getD_foldl_insert_zero
    simp
  · intro slot hs peer hp
    exact absurd hp (hfresh slot hs peer)
  · have hnone : (start m peers).inFlight = 0 := by
      refine List.countP_eq_zero.mpr fun slot hs hp => ?_
      rw [ChunkSlot.asked?_eq_none (hfresh slot hs)] at hp
      cases hp
    omega
  · intro peer
    rw [hat]
    exact Nat.zero_le _
  · exact (List.perm_insertionSort _ _).nodup_iff.mpr peers.nodup_dedup

end Fetch

namespace SyncState

section
variable {P : Primitives} {R : HistoryPrimitives} {sha256 : Bytes → Bytes32}
  {validatorSet : ValidatorSet} {policy : SnapshotPolicy}

theorem Booked.observeProposal {s : SyncState} (h : s.Booked) (committed height : ℕ)
    (proposer : NodeId) :
    (s.observeProposal policy validatorSet committed height proposer).1.Booked := by
  cases s with
  | fetching f =>
    simp only [SyncState.observeProposal]
    split_ifs
    · exact h
    · exact Fetch.Booked.addCandidate h proposer
  | _ =>
    simp only [SyncState.observeProposal]
    split_ifs <;> trivial

theorem Booked.onManifestResponse {s : SyncState} (h : s.Booked) (sender : NodeId)
    (manifest : Option SnapshotManifest) :
    (s.onManifestResponse P R validatorSet sender manifest).1.Booked := by
  cases s with
  | manifestPending primary observed =>
    unfold SyncState.onManifestResponse
    simp only
    split_ifs
    · trivial
    cases manifest with
    | none => trivial
    | some m =>
      simp only
      cases m.verify P R validatorSet with
      | error e => trivial
      | ok u => exact (Fetch.booked_start m _).scheduleRounds _
  | _ => exact h

theorem Booked.onPeerDisconnected {s : SyncState} (h : s.Booked) (peer : NodeId) :
    (s.onPeerDisconnected peer).1.Booked := by
  cases s with
  | manifestPending primary observed =>
    unfold SyncState.onPeerDisconnected
    simp only
    split_ifs <;> trivial
  | fetching f => exact Fetch.Booked.onPeerDisconnected h peer
  | _ => trivial

/-- Only the answer of a peer can spoil the books. -/
theorem booked_step_iff {s : SyncState} (h : s.Booked) (input : SyncInput) :
    (s.step P R sha256 policy validatorSet input).1.Booked ↔ s.Settles sha256 input := by
  cases input with
  | chunkResponse sender height chunkIdx payload =>
    cases s with
    | fetching f => exact Fetch.Booked.onChunkResponse_iff h sha256 sender height chunkIdx payload
    | _ => exact iff_of_true trivial trivial
  | observeProposal committed height proposer =>
    exact iff_of_true (h.observeProposal committed height proposer) (by cases s <;> trivial)
  | addCandidate peer =>
    cases s with
    | fetching f => exact iff_of_true (Fetch.Booked.addCandidate h peer) trivial
    | _ => exact iff_of_true trivial trivial
  | manifestResponse sender manifest =>
    exact iff_of_true (h.onManifestResponse sender manifest) (by cases s <;> trivial)
  | peerDisconnected peer =>
    exact iff_of_true (h.onPeerDisconnected peer) (by cases s <;> trivial)

end

section
variable (P : Primitives) (R : HistoryPrimitives) (sha256 : Bytes → Bytes32)
  (policy : SnapshotPolicy)

/-- The state after a call, for which the node has the given validator set. -/
def next (s : SyncState) (call : ValidatorSet × SyncInput) : SyncState :=
  (s.step P R sha256 policy call.1 call.2).1

/-- The books of every run are kept exactly as long as no peer is given up for a wrong chunk while
it is asked for another one. -/
theorem booked_iff_settles (calls : List (ValidatorSet × SyncInput)) :
    (∀ k, (run (next P R sha256 policy) .new (calls.take k)).Booked) ↔
      Along (next P R sha256 policy) (fun s call => s.Settles sha256 call.2) .new calls :=
  along_iff_of_step (I := Booked) (fun _ call h => booked_step_iff h call.2) trivial

end

end SyncState

namespace Sample

/-- A snapshot of four chunks. -/
def fourChunks : SnapshotManifest :=
  { snapshotOf changing with
    chunkCount := 4
    chunkHashes := List.replicate 4 (lengthHash []) }

/-- Peers 2 and 3 are asked for two chunks each, and peer 2 sends a wrong one. -/
def wrongChunk : List (ValidatorSet × SyncInput) :=
  [.observeProposal 0 50 2, .observeProposal 0 50 3, .manifestResponse 2 (some fourChunks),
    .chunkResponse 2 fourChunks.height 0 (some [1])].map fun input => (validators, input)

theorem wrong_chunk_leaves_stray :
    ¬ (run (SyncState.next timed operatorHash lengthHash everyBlock) .new wrongChunk).Booked := by
  obtain ⟨f, hf, slot, hslot, hasked, hgone⟩ :
      ∃ f ∈ (run (SyncState.next timed operatorHash lengthHash everyBlock) .new wrongChunk).fetch?,
        ∃ slot ∈ f.chunks, slot.status = .inFlight 2 ∧ 2 ∉ f.candidates := by
    decide +kernel
  rw [SyncState.fetch?_eq_some.mp hf]
  exact Fetch.Stray.not_booked ⟨slot, hslot, 2, hasked, hgone⟩

end Sample

end Boule
