import Boule.Lib.Totals
import Boule.Node.FetchBooks
import Mathlib.Logic.Relation

/-! The scheduling loop of a snapshot fetch, round by round. -/
namespace Boule

namespace Fetch

/-- The sum over the counters, which ends the loop. -/
def busy (f : Fetch) : ℕ := (f.inFlightPerPeer.toList.map Prod.snd).sum

/-- The loop has another round, in which it asks `peer` for the chunk. -/
structure Asks (f : Fetch) (idx : ℕ) (peer : NodeId) : Prop where
  room : f.busy < maxConcurrentChunkRequests
  next : f.nextRequest = some (idx, peer)

/-- The rounds of a loop, with what they ask for. -/
inductive Rounds : Fetch → List (ℕ × NodeId) → Fetch → Prop
  | stop (f : Fetch) : Rounds f [] f
  | ask {f g : Fetch} {idx : ℕ} {peer : NodeId} {rest : List (ℕ × NodeId)} (h : f.Asks idx peer)
    (tail : Rounds (f.request idx peer) rest g) : Rounds f ((idx, peer) :: rest) g

/-- The chunks that wait for a request. -/
def pending (f : Fetch) : ℕ := f.chunks.countP fun slot => slot.status = .pending

theorem pending_request {f : Fetch} {idx : ℕ} {peer : NodeId}
    (h : f.nextRequest = some (idx, peer)) : (f.request idx peer).pending + 1 = f.pending := by
  obtain ⟨slot, hslot, hpending, -⟩ := nextRequest_eq_some h
  have hset := countP_set_add (fun slot : ChunkSlot => slot.status = .pending) hslot
    { slot with status := .inFlight peer }
  simp only [hpending, decide_true, if_true, reduceCtorEq, decide_false, Bool.false_eq_true,
    if_false, Nat.add_zero] at hset
  rw [request_eq hslot]
  exact hset

/-- No loop of requests goes on forever, whatever ends it. -/
theorem wellFounded_request :
    WellFounded fun g f : Fetch =>
      ∃ idx peer, f.nextRequest = some (idx, peer) ∧ g = f.request idx peer := by
  refine Subrelation.wf (r := InvImage (· < ·) pending) ?_ (InvImage.wf pending Nat.lt_wfRel.wf)
  rintro g f ⟨idx, peer, hnext, rfl⟩
  have hless := pending_request hnext
  show (f.request idx peer).pending < f.pending
  omega

theorem busy_request (f : Fetch) (idx : ℕ) (peer : NodeId) :
    (f.request idx peer).busy = f.busy + 1 := by
  have hsum : (f.request idx peer).busy + Table.share (fun _ c : ℕ => c) f.inFlightPerPeer peer =
      f.busy + (f.counter peer + 1) :=
    Table.sumOf_insert (f := fun _ c : ℕ => c) f.inFlightPerPeer peer (f.counter peer + 1)
  have hshare : Table.share (fun _ c : ℕ => c) f.inFlightPerPeer peer = f.counter peer := by
    unfold Table.share counter
    cases f.inFlightPerPeer.get? peer <;> rfl
  omega

/-- With fuel for the room that is left, the loop runs to its end. -/
theorem rounds_scheduleRounds {n : ℕ} {f : Fetch} (hn : maxConcurrentChunkRequests ≤ n + f.busy) :
    ∃ asked, Rounds f asked (f.scheduleRounds n).1 ∧
      (f.scheduleRounds n).2 = asked.map (fun a => .sendChunkRequest a.2 f.manifest.height a.1) ∧
      ∀ idx peer, ¬ (f.scheduleRounds n).1.Asks idx peer := by
  induction n generalizing f with
  | zero =>
    refine ⟨[], .stop f, rfl, fun idx peer h => ?_⟩
    have hroom : f.busy < maxConcurrentChunkRequests := h.room
    omega
  | succ n ih =>
    rw [Fetch.scheduleRounds]
    split_ifs with hbusy
    · exact ⟨[], .stop f, rfl, fun idx peer h => absurd h.room (not_lt.mpr hbusy)⟩
    · cases hnext : f.nextRequest with
      | none =>
        refine ⟨[], .stop f, rfl, fun idx peer h => ?_⟩
        have hsome := h.next
        rw [hnext] at hsome
        cases hsome
      | some next =>
        obtain ⟨idx, peer⟩ := next
        have hbusy' := f.busy_request idx peer
        obtain ⟨asked, hrounds, hactions, hend⟩ := ih (f := f.request idx peer) (by omega)
        refine ⟨(idx, peer) :: asked, .ask ⟨not_le.mp hbusy, hnext⟩ hrounds, ?_, hend⟩
        simp only [hactions, List.map_cons]
        rfl

theorem rounds_schedule (f : Fetch) :
    ∃ asked, Rounds f asked f.schedule.1 ∧
      f.schedule.2 = asked.map (fun a => .sendChunkRequest a.2 f.manifest.height a.1) ∧
      ∀ idx peer, ¬ f.schedule.1.Asks idx peer :=
  rounds_scheduleRounds (Nat.le_add_right _ _)

/-- What the rounds make of a chunk: nothing, or it is asked of a candidate that has not failed
it. -/
inductive Scheduled (f : Fetch) (asked : List (ℕ × NodeId)) (idx : ℕ) (slot : ChunkSlot) :
    ChunkSlot → Prop
  | kept (idle : ∀ a ∈ asked, a.1 ≠ idx) : Scheduled f asked idx slot slot
  | sent (peer : NodeId) (pending : slot.status = .pending) (candidate : peer ∈ f.candidates)
    (untried : peer ∉ slot.tried) (once : asked.filter (fun a => a.1 = idx) = [(idx, peer)]) :
    Scheduled f asked idx slot { slot with status := .inFlight peer }

theorem Rounds.eq_of_nil {f g : Fetch} (h : Rounds f [] g) : g = f := by
  cases h
  rfl

theorem Rounds.manifest {f g : Fetch} {asked : List (ℕ × NodeId)} (h : Rounds f asked g) :
    g.manifest = f.manifest := by
  induction h with
  | stop f => rfl
  | ask h tail ih => exact ih

theorem Rounds.candidates {f g : Fetch} {asked : List (ℕ × NodeId)} (h : Rounds f asked g) :
    g.candidates = f.candidates := by
  induction h with
  | stop f => rfl
  | ask h tail ih => exact ih

theorem Rounds.length {f g : Fetch} {asked : List (ℕ × NodeId)} (h : Rounds f asked g) :
    g.chunks.length = f.chunks.length := by
  induction h with
  | stop f => rfl
  | ask h tail ih => rw [ih, request, List.length_modify]

theorem Rounds.lt {f g : Fetch} {asked : List (ℕ × NodeId)} (h : Rounds f asked g) :
    ∀ a ∈ asked, a.1 < f.chunks.length := by
  induction h with
  | stop f => exact fun a ha => by cases ha
  | ask h tail ih =>
    obtain ⟨slot, hslot, -⟩ := nextRequest_eq_some h.next
    refine List.forall_mem_cons.mpr ⟨(List.getElem?_eq_some_iff.mp hslot).1, fun a ha => ?_⟩
    have hlt := ih a ha
    rwa [request, List.length_modify] at hlt

theorem Rounds.scheduled {f g : Fetch} {asked : List (ℕ × NodeId)} (h : Rounds f asked g)
    {idx : ℕ} {slot : ChunkSlot} (hslot : f.chunks[idx]? = some slot) :
    ∃ slot', g.chunks[idx]? = some slot' ∧ Scheduled f asked idx slot slot' := by
  induction h generalizing slot with
  | stop f => exact ⟨slot, hslot, .kept fun a ha => by cases ha⟩
  | @ask f g first peer rest hask tail ih =>
    obtain ⟨found, hfound, hpending, hcandidate, huntried, -⟩ := nextRequest_eq_some hask.next
    have heq := request_eq hfound peer
    by_cases he : first = idx
    · subst he
      obtain rfl := Option.some.inj (hfound.symm.trans hslot)
      have hset : (f.request first peer).chunks[first]? =
          some { found with status := .inFlight peer } := by
        rw [heq]
        exact List.getElem?_set_self (List.getElem?_eq_some_iff.mp hfound).1
      obtain ⟨slot', hslot', hsched⟩ := ih hset
      cases hsched with
      | kept idle =>
        refine ⟨_, hslot', .sent peer hpending hcandidate huntried ?_⟩
        rw [List.filter_cons_of_pos (by simp), List.filter_eq_nil_iff.mpr]
        exact fun a ha => by simp [idle a ha]
      | sent _ hp => cases hp
    · have hkeep : (f.request first peer).chunks[idx]? = some slot := by
        rw [heq]
        exact (List.getElem?_set_ne he).trans hslot
      obtain ⟨slot', hslot', hsched⟩ := ih hkeep
      refine ⟨slot', hslot', ?_⟩
      cases hsched with
      | kept idle => exact .kept (List.forall_mem_cons.mpr ⟨he, idle⟩)
      | sent p hp hc hu honce =>
        refine .sent p hp hc hu ?_
        rw [List.filter_cons_of_neg (by simp [he])]
        exact honce

end Fetch

end Boule
