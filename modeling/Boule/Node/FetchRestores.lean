import Boule.Node.FetchOutcomes
import Boule.Node.TakeSnapshot

/-! What a snapshot fetch restores: the bytes that were published, once. -/
namespace Boule

def assembleChunks (chunks : List Bytes) : Bytes :=
  if chunks = [[]] then [] else chunks.flatten

theorem assembleChunks_eq (chunks : List Bytes) : assembleChunks chunks = chunks.flatten := by
  unfold assembleChunks
  split_ifs with h
  · rw [h]
    rfl
  · rfl

def SnapshotSyncAction.restored? : SnapshotSyncAction → Option (SnapshotManifest × Bytes)
  | .restore m payload => some (m, payload)
  | _ => none

def SyncLog.restored (log : SyncLog) : List (SnapshotManifest × Bytes) :=
  log.emitted.filterMap SnapshotSyncAction.restored?

/-- The chunks received so far have the manifest's hashes, and peers have sent them. -/
structure Fetch.Matches (sha256 : Bytes → Bytes32) (sent : List Bytes) (f : Fetch) : Prop where
  length : f.chunks.length = f.manifest.chunkHashes.length
  received : ∀ (idx : ℕ) (slot : ChunkSlot) (p : Bytes), f.chunks[idx]? = some slot →
    slot.status = .received p → f.manifest.chunkHashes[idx]? = some (sha256 p) ∧ p ∈ sent

/-- The payload is made of bytes that peers have sent and that have the manifest's hashes. -/
structure Published (sha256 : Bytes → Bytes32) (sent : List Bytes) (m : SnapshotManifest)
    (payload : Bytes) (parts : List Bytes) : Prop where
  hashes : parts.map sha256 = m.chunkHashes
  sent : ∀ p ∈ parts, p ∈ sent
  payload : payload = assembleChunks parts

/-- The log of a run, by the state that it ends in. -/
inductive SyncState.Traced (sha256 : Bytes → Bytes32) : SyncState × SyncLog → Prop
  | seeking {s : SyncState} {log : SyncLog} (seeking : s.Seeking) (accepted : log.accepted = [])
    (restored : log.restored = []) : Traced sha256 (s, log)
  | fetching {f : Fetch} {log : SyncLog} (accepted : log.accepted = [f.manifest])
    (restored : log.restored = []) (chunks : f.Matches sha256 log.sent) :
    Traced sha256 (.fetching f, log)
  | done {log : SyncLog} {m : SnapshotManifest} {payload : Bytes} (accepted : log.accepted = [m])
    (restored : log.restored = [(m, payload)])
    (published : ∃ parts, Published sha256 log.sent m payload parts) : Traced sha256 (.done, log)
  | aborted {log : SyncLog} (restored : log.restored = []) : Traced sha256 (.aborted, log)

namespace Fetch

section
variable {sha256 : Bytes → Bytes32} {f g : Fetch} {sent : List Bytes}

/-- A chunk that is received in a call has been checked, and comes with the call. -/
theorem Matches.moved {input : SyncInput} (h : f.Matches sha256 sent)
    (hm : Moved sha256 f input g) :
    g.Matches sha256 (sent ++ (input.chunk?.map Prod.snd).toList) where
  length := by rw [hm.length, hm.manifest, h.length]
  received := by
    intro idx slot' p hslot' hp
    have hlt : idx < f.chunks.length := hm.length ▸ (List.getElem?_eq_some_iff.mp hslot').1
    obtain ⟨found, hfound, hstep⟩ := hm.slots idx f.chunks[idx] (List.getElem?_eq_getElem hlt)
    obtain rfl := Option.some.inj (hslot'.symm.trans hfound)
    rw [hm.manifest]
    cases hstep with
    | kept =>
      obtain ⟨hhash, hsent⟩ := h.received idx _ p (List.getElem?_eq_getElem hlt) hp
      exact ⟨hhash, List.mem_append_left _ hsent⟩
    | failed asked left => cases hp
    | received asked answer verified =>
      obtain rfl := ChunkStatus.received.inj hp
      refine ⟨SnapshotManifest.verifyChunk_eq_ok.mp verified, ?_⟩
      rw [answer]
      simp [SyncInput.chunk?]

theorem Matches.rounds {asked : List (ℕ × NodeId)} (h : f.Matches sha256 sent)
    (hr : Rounds f asked g) : g.Matches sha256 sent where
  length := by rw [hr.length, hr.manifest, h.length]
  received := by
    intro idx slot' p hslot' hp
    have hlt : idx < f.chunks.length := hr.length ▸ (List.getElem?_eq_some_iff.mp hslot').1
    obtain ⟨found, hfound, hsched⟩ := hr.scheduled (List.getElem?_eq_getElem hlt)
    obtain rfl := Option.some.inj (hslot'.symm.trans hfound)
    rw [hr.manifest]
    cases hsched with
    | kept _ => exact h.received idx _ p (List.getElem?_eq_getElem hlt) hp
    | sent peer => cases hp

theorem matches_start {m : SnapshotManifest} (hm : m.chunkCount = m.chunkHashes.length)
    (peers : List NodeId) : (start m peers).Matches sha256 sent where
  length := List.length_replicate.trans hm
  received := by
    intro idx slot p hslot hp
    obtain rfl := List.eq_of_mem_replicate (List.mem_of_getElem? hslot)
    cases hp

theorem payload_eq (f : Fetch) :
    f.payload = assembleChunks (f.chunks.filterMap ChunkSlot.received?) :=
  (assembleChunks_eq _).symm

/-- When all chunks are there, they are the published ones. -/
theorem Matches.published (h : f.Matches sha256 sent)
    (hall : f.chunks.all (fun c => c.received?.isSome) = true) :
    Published sha256 sent f.manifest f.payload (f.chunks.filterMap ChunkSlot.received?) := by
  have hparts := map_received? hall
  have hslot : ∀ (idx : ℕ) p, (f.chunks.filterMap ChunkSlot.received?)[idx]? = some p →
      f.manifest.chunkHashes[idx]? = some (sha256 p) ∧ p ∈ sent := by
    intro idx p hp
    have hi : (f.chunks.map ChunkSlot.received?)[idx]? = some (some p) := by
      rw [hparts, List.getElem?_map, hp]
      rfl
    rw [List.getElem?_map] at hi
    obtain ⟨slot, hslot, hreceived⟩ := Option.map_eq_some_iff.mp hi
    exact h.received idx slot p hslot (received?_eq_some.mp hreceived)
  have hlength : (f.chunks.filterMap ChunkSlot.received?).length = f.chunks.length := by
    have hmap := congrArg List.length hparts
    rw [List.length_map, List.length_map] at hmap
    exact hmap.symm
  refine ⟨?_, ?_, f.payload_eq⟩
  · apply List.ext_getElem?
    intro idx
    rw [List.getElem?_map]
    cases hp : (f.chunks.filterMap ChunkSlot.received?)[idx]? with
    | some p => exact (hslot idx p hp).1.symm
    | none =>
      rw [List.getElem?_eq_none_iff, hlength, h.length] at hp
      exact (List.getElem?_eq_none hp).symm
  · intro p hp
    obtain ⟨idx, hidx⟩ := List.mem_iff_getElem?.mp hp
    exact (hslot idx p hidx).2

end

end Fetch

namespace SyncState

section
variable {P : Primitives} {R : HistoryPrimitives} {sha256 : Bytes → Bytes32}
  {policy : SnapshotPolicy} {log : SyncLog} {r : SyncState × List SnapshotSyncAction}

theorem restored_after (log : SyncLog) (accepted : Option SnapshotManifest) (sent : Option Bytes)
    (actions : List SnapshotSyncAction) : (log.after accepted sent actions).restored =
      log.restored ++ actions.filterMap SnapshotSyncAction.restored? :=
  List.filterMap_append

theorem restored_after_requests (log : SyncLog) (accepted : Option SnapshotManifest)
    (sent : Option Bytes) (asked : List (ℕ × NodeId)) (height : ℕ) :
    (log.after accepted sent
      (asked.map fun a => .sendChunkRequest a.2 height a.1)).restored = log.restored := by
  rw [restored_after, List.filterMap_map]
  exact (congrArg _ (List.filterMap_eq_nil_iff.mpr fun a _ => rfl)).trans (List.append_nil _)

theorem traced_outcome {f : Fetch} {input : SyncInput} (accepted : log.accepted = [f.manifest])
    (restored : log.restored = []) (chunks : f.Matches sha256 log.sent)
    (h : f.Outcome sha256 input r) :
    Traced sha256 (r.1, log.after none (input.chunk?.map Prod.snd) r.2) := by
  have haccepted : log.accepted ++ [] = [f.manifest] := by rw [accepted, List.append_nil]
  cases h with
  | aborted reason =>
    refine .aborted ?_
    rw [restored_after, restored]
    rfl
  | finished moved all =>
    rename_i g
    have hpublished := (chunks.moved moved).published all
    refine @Traced.done _ _ g.manifest g.payload ?_ ?_ ⟨_, hpublished⟩
    · exact haccepted.trans (congrArg ([·]) moved.manifest.symm)
    · rw [restored_after, restored]
      rfl
  | waiting moved rounds =>
    refine .fetching ?_ ?_ ((chunks.moved moved).rounds rounds)
    · rw [rounds.manifest, moved.manifest]
      exact haccepted
    · rw [restored_after_requests, restored]

theorem traced_sought {s : SyncState} {call : ValidatorSet × SyncInput}
    (accepted : log.accepted = []) (restored : log.restored = []) (h : s.Sought P R call r) :
    Traced sha256
      (r.1, log.after (s.accepted? P R call) (call.2.chunk?.map Prod.snd) r.2) := by
  cases h with
  | seeking hnone seeking asks =>
    rw [hnone]
    refine .seeking seeking ?_ ?_
    · exact (List.append_nil _).trans accepted
    · rw [restored_after, restored, List.filterMap_eq_nil_iff.mpr]
      · rfl
      · intro a ha
        obtain ⟨peer, rfl⟩ := asks a ha
        rfl
  | aborted hnone reason =>
    refine .aborted ?_
    rw [restored_after, restored]
    rfl
  | @started m peers g asked haccepted verified rounds =>
    rw [haccepted]
    have hcount := (SnapshotManifest.verify_eq_ok.mp verified).chunkCount
    refine .fetching ?_ ?_ ((Fetch.matches_start hcount peers).rounds rounds)
    · rw [rounds.manifest]
      show log.accepted ++ [m] = [m]
      rw [accepted, List.nil_append]
    · rw [restored_after_requests, restored]

theorem traced_record {r : SyncState × SyncLog} (h : Traced sha256 r)
    (call : ValidatorSet × SyncInput) : Traced sha256 (record P R sha256 policy r call) := by
  cases h with
  | seeking seeking accepted restored =>
    exact traced_sought accepted restored (sought_step seeking call)
  | fetching accepted restored chunks =>
    exact traced_outcome accepted restored chunks (outcome_step _ call.2)
  | @done log m payload accepted restored published =>
    rw [record_of_ended (.inl rfl)]
    refine @Traced.done _ _ m payload ((List.append_nil _).trans accepted) ?_ ?_
    · rw [restored_after, restored]
      rfl
    · obtain ⟨parts, h⟩ := published
      exact ⟨parts, h.hashes, fun p hp => List.mem_append_left _ (h.sent p hp), h.payload⟩
  | aborted restored =>
    rw [record_of_ended (.inr rfl)]
    refine .aborted ?_
    rw [restored_after, restored]
    rfl

theorem traced_recorded (calls : List (ValidatorSet × SyncInput)) :
    Traced sha256 (recorded P R sha256 policy calls) := by
  have hnew : Traced sha256 (.new, .empty) := .seeking trivial rfl rfl
  exact run_invariant (I := Traced sha256) (fun _ call h => traced_record h call) hnew calls

theorem Traced.length_restored {r : SyncState × SyncLog} (h : Traced sha256 r) :
    r.2.restored.length ≤ 1 := by
  cases h with
  | done _ restored _ => simp [restored]
  | _ => simp [*]

theorem Traced.of_mem {r : SyncState × SyncLog} (h : Traced sha256 r) {m : SnapshotManifest}
    {payload : Bytes} (hmem : .restore m payload ∈ r.2.emitted) :
    r.2.accepted = [m] ∧ ∃ parts, Published sha256 r.2.sent m payload parts := by
  have hrestored : (m, payload) ∈ r.2.restored := List.mem_filterMap.mpr ⟨_, hmem, rfl⟩
  cases h with
  | done accepted restored published =>
    simp only [restored, List.mem_singleton] at hrestored
    obtain ⟨rfl, rfl⟩ := Prod.mk.inj hrestored
    exact ⟨accepted, published⟩
  | seeking _ _ restored => simp [restored] at hrestored
  | fetching _ restored _ => simp [restored] at hrestored
  | aborted restored => simp [restored] at hrestored

end

end SyncState

theorem eq_of_map_eq {α β : Type} {f : α → β} {S : Set α} (hf : S.InjOn f) {l l' : List α}
    (hl : ∀ a ∈ l, a ∈ S) (hl' : ∀ a ∈ l', a ∈ S) (h : l.map f = l'.map f) : l = l' := by
  induction l generalizing l' with
  | nil => exact (List.map_eq_nil_iff.mp h.symm).symm
  | cons a l ih =>
    obtain ⟨a', rest, rfl, ha, hrest⟩ := List.map_eq_cons_iff.mp h.symm
    rw [List.forall_mem_cons] at hl hl'
    rw [hf hl.1 hl'.1 ha.symm, ih hl.2 hl'.2 hrest.symm]

theorem exists_chunkSnapshot (sha256 : Bytes → Bytes32) (data : Bytes) {size : ℕ} (h : 0 < size) :
    ∃ pieces, chunkSnapshot sha256 data size = some pieces := by
  unfold chunkSnapshot
  rw [if_neg h.ne']
  split_ifs
  · exact ⟨_, rfl⟩
  · exact ⟨_, rfl⟩

/-- The parts of a published snapshot are its chunks, if no two of the byte strings around have the
same hash. -/
theorem Published.payload_eq {sha256 : Bytes → Bytes32} {sent : List Bytes} {m : SnapshotManifest}
    {payload : Bytes} {parts : List Bytes} (h : Published sha256 sent m payload parts)
    {data : Bytes} {size : ℕ} {pieces : List (Bytes × Bytes32)}
    (hp : chunkSnapshot sha256 data size = some pieces)
    (hm : m.chunkHashes = pieces.map Prod.snd)
    (hfree : Set.InjOn sha256 {p | p ∈ sent ∨ p ∈ pieces.map Prod.fst}) : payload = data := by
  have hpieces : pieces.map Prod.snd = (pieces.map Prod.fst).map sha256 := by
    rw [List.map_map]
    exact List.map_congr_left fun c hc => hash_of_chunkSnapshot hp hc
  have hparts : parts = pieces.map Prod.fst :=
    eq_of_map_eq hfree (fun p hp => .inl (h.sent p hp)) (fun p hp => .inr hp)
      (h.hashes.trans (hm.trans hpieces))
  rw [h.payload, assembleChunks_eq, hparts, assemble_chunkSnapshot hp]

namespace SyncState

/-- A run restores at most once, the manifest that it has accepted and bytes that have its hashes:
the published ones, if no two of the byte strings around have the same hash. -/
theorem restores_published (P : Primitives) (R : HistoryPrimitives) (sha256 : Bytes → Bytes32)
    (policy : SnapshotPolicy) (calls : List (ValidatorSet × SyncInput)) :
    let log := (recorded P R sha256 policy calls).2
    log.restored.length ≤ 1 ∧
    (∀ m payload, .restore m payload ∈ log.emitted → log.accepted = [m] ∧
      (∃ parts, parts.map sha256 = m.chunkHashes ∧ (∀ p ∈ parts, p ∈ log.sent) ∧
        payload = assembleChunks parts ∧ payload = parts.flatten) ∧
      ∀ data size pieces, chunkSnapshot sha256 data size = some pieces →
        m.chunkHashes = pieces.map Prod.snd →
        Set.InjOn sha256 {p | p ∈ log.sent ∨ p ∈ pieces.map Prod.fst} → payload = data) ∧
    ∀ data size, 0 < size → ∃ pieces, chunkSnapshot sha256 data size = some pieces ∧
      assembleChunks (pieces.map Prod.fst) = data := by
  intro log
  have htraced : Traced sha256 (recorded P R sha256 policy calls) := traced_recorded calls
  refine ⟨htraced.length_restored, fun m payload hmem => ?_, fun data size hsize => ?_⟩
  · obtain ⟨accepted, parts, hpublished⟩ := htraced.of_mem hmem
    refine ⟨accepted, ⟨parts, hpublished.hashes, hpublished.sent, hpublished.payload, ?_⟩, ?_⟩
    · rw [hpublished.payload, assembleChunks_eq]
    · exact fun data size pieces hpieces => hpublished.payload_eq hpieces
  · obtain ⟨pieces, hpieces⟩ := exists_chunkSnapshot sha256 data hsize
    refine ⟨pieces, hpieces, ?_⟩
    rw [assembleChunks_eq, assemble_chunkSnapshot hpieces]

end SyncState

namespace Sample

/-- A snapshot of two chunks of different lengths. -/
def twoChunks : SnapshotManifest :=
  { snapshotOf changing with
    chunkCount := 2
    chunkHashes := [lengthHash [5, 6], lengthHash [7]] }

/-- The second chunk comes first, and nobody has the first one at once. -/
def outOfOrder : List (ValidatorSet × SyncInput) :=
  [.observeProposal 0 50 2, .observeProposal 0 50 3, .manifestResponse 2 (some twoChunks),
    .chunkResponse 2 twoChunks.height 1 (some [7]), .chunkResponse 2 twoChunks.height 0 none,
    .chunkResponse 3 twoChunks.height 0 (some [5, 6])].map fun input => (validators, input)

theorem outOfOrder_restores : ∃ payload,
    .restore twoChunks payload ∈
      (SyncState.recorded timed operatorHash lengthHash everyBlock outOfOrder).2.emitted ∧
    payload = [5, 6, 7] := by
  obtain ⟨hmem, hfree⟩ : .restore twoChunks [5, 6, 7] ∈
      (SyncState.recorded timed operatorHash lengthHash everyBlock outOfOrder).2.emitted ∧
      (SyncState.recorded timed operatorHash lengthHash everyBlock outOfOrder).2.sent =
        [[7], [5, 6]] := by
    decide +kernel
  have h := SyncState.restores_published timed operatorHash lengthHash everyBlock outOfOrder
  refine ⟨_, hmem, (h.2.1 _ _ hmem).2.2 [5, 6, 7] 2 [([5, 6], 3), ([7], 2)] (by decide) rfl ?_⟩
  rw [hfree]
  have hone : ∀ p : Bytes, p ∈ [[7], [5, 6]] ∨ p ∈ [[5, 6], [7]] → p = [7] ∨ p = [5, 6] := by
    simp only [List.mem_cons, List.not_mem_nil, or_false]
    tauto
  intro p hp q hq heq
  rcases hone p hp with rfl | rfl <;> rcases hone q hq with rfl | rfl
  · rfl
  · cases heq
  · cases heq
  · rfl

end Sample

end Boule
