import Boule.Node.Restore

/-! What a failed restore leaves behind. -/
namespace Boule
open HotStuffState

namespace FullNode
variable {α : Type} {A : Application α} {P : Primitives} {written : Bool} {r : FullNode α}
  {m : SnapshotManifest} {payload : Bytes}

/-- Equal, with the tables of blocks compared by their entries. -/
structure Same (r r' : FullNode α) : Prop where
  app : r'.app = r.app
  blocks : ∀ h, r'.storage.blocks.get? h = r.storage.blocks.get? h
  storage : { r'.storage with blocks := r.storage.blocks } = r.storage
  pendingBlocks : ∀ h, r'.node.core.state.getPending h = r.node.core.state.getPending h
  node : { r'.node with core := { r'.node.core with state :=
    { r'.node.core.state with pendingBlocks := r.node.core.state.pendingBlocks } } } = r.node

/-- The core holds what `adopt_snapshot` would write. -/
structure CoreHolds (P : Primitives) (n : ConsensusNode) (m : SnapshotManifest) : Prop where
  pending : n.core.state.getPending (m.block.hash P) = some m.block
  locked : n.core.state.locked = some ⟨m.view, m.block.header.height, m.block.hash P⟩
  highQc : n.core.state.highQc = some m.commitQc
  lastVotedView : m.view ≤ n.core.state.lastVotedView

/-- The store holds the batch that a restore would write. -/
structure StoreHolds (P : Primitives) (s : Storage) (m : SnapshotManifest) : Prop where
  block : s.blocks.get? m.blockHash = some m.block
  lastCommitted : s.lastCommitted = some ⟨m.height, m.view, m.blockHash⟩
  lastVotedView : s.lastVotedView = some m.view
  locked : s.locked = some ⟨m.view, m.block.header.height, m.block.hash P⟩
  highQc : s.highQc = some m.commitQc

/-- The histories of the manifest decode, and the core takes their boundaries. -/
def HistoriesInstallable (n : ConsensusNode) (m : SnapshotManifest) : Prop :=
  ∃ set key bls, m.decodeHistories = .ok (set, key, bls) ∧ n.core.CanReplay set

/-- The application has kept the state it had, or it took the payload and no later step
fails; and if a later step fails, the steps before it had nothing to change. -/
def RestoresCleanly (A : Application α) (P : Primitives) (written : Bool) (r : FullNode α)
    (m : SnapshotManifest) (payload : Bytes) : Prop :=
  ((A.restore r.app payload).2 = true ∧
    A.stateCommitment (A.restore r.app payload).1 = m.stateCommitment ∧ written = true ∧
    HistoriesInstallable r.node m) ∨
  (A.restore r.app payload).1 = r.app ∧
    ((A.restore r.app payload).2 = true →
      A.stateCommitment (A.restore r.app payload).1 = m.stateCommitment →
      CoreHolds P r.node m ∧
        (written = true → StoreHolds P r.storage m ∧ m.height ≤ r.node.lastCommittedHeight))

theorem Same.of_app {app : α} : r.Same { r with app := app } ↔ app = r.app := by
  constructor
  · exact fun h => h.app
  · rintro rfl
    exact ⟨rfl, fun _ => rfl, rfl, fun _ => rfl, rfl⟩

/-- Inserting a block changes no entry exactly when it is there already. -/
theorem getPending_insertPending_eq_iff {s : HotStuffState} {b : Block} :
    (∀ h, (s.insertPending P b).getPending h = s.getPending h) ↔
      s.getPending (b.hash P) = some b := by
  constructor
  · intro h
    rw [← h, getPending_insertPending_self]
  · intro hb h
    have hroom : s.HasRoomFor P b := .inl ((Table.containsKey_iff _ _).mpr ⟨b, hb⟩)
    rw [hroom.getPending_insertPending]
    split_ifs with he
    · rw [he, hb]
    · rfl

/-- The adopted state, without its pending blocks, is the old one exactly when the lock, the
high certificate and the voted view are there already. -/
theorem adoptedState_eq_iff (s : HotStuffState) (pending : Table BlockHash Block) (l : Locked)
    (qc : QuorumCertificate) (view : ℕ) :
    { s with
      locked := some l
      highQc := some qc
      lastVotedView := max s.lastVotedView view
      pendingBlocks := pending } = s ↔
      s.locked = some l ∧ s.highQc = some qc ∧ view ≤ s.lastVotedView ∧
        pending = s.pendingBlocks := by
  obtain ⟨_, locked, highQc, lastVotedView, _, _, _, _, _⟩ := s
  simp only [HotStuffState.mk.injEq, true_and, and_true]
  constructor
  · rintro ⟨rfl, rfl, hv, rfl⟩
    exact ⟨rfl, rfl, by omega, rfl⟩
  · rintro ⟨rfl, rfl, hv, rfl⟩
    exact ⟨rfl, rfl, by omega, rfl⟩

theorem state_adopt : (r.node.adopt P m).core.state = { r.node.core.state with
    locked := some ⟨m.view, m.block.header.height, m.block.hash P⟩
    highQc := some m.commitQc
    lastVotedView := max r.node.core.state.lastVotedView m.view
    pendingBlocks := (r.node.core.state.insertPending P m.block).pendingBlocks } := by
  have hvoted : (if r.node.core.state.lastVotedView < m.view then m.view
      else r.node.core.state.lastVotedView) = max r.node.core.state.lastVotedView m.view := by
    split_ifs <;> omega
  simp only [ConsensusNode.adopt, HotStuffCore.adoptSnapshot, insertPending_lastVotedView, hvoted]
  rw [insertPending_eq]

theorem node_eq_iff {n n' : ConsensusNode} {s : HotStuffState}
    (h : n' = { n with core := { n.core with state := s } }) : n' = n ↔ s = n.core.state := by
  subst h
  constructor
  · intro h
    exact congrArg (fun n => n.core.state) h
  · rintro rfl
    rfl

theorem node_adopt_eq_iff : { r.node.adopt P m with core := { (r.node.adopt P m).core with state :=
      { (r.node.adopt P m).core.state with
        pendingBlocks := r.node.core.state.pendingBlocks } } } = r.node ↔
    r.node.core.state.locked = some ⟨m.view, m.block.header.height, m.block.hash P⟩ ∧
      r.node.core.state.highQc = some m.commitQc ∧
      m.view ≤ r.node.core.state.lastVotedView := by
  have hstate := adoptedState_eq_iff r.node.core.state r.node.core.state.pendingBlocks
    ⟨m.view, m.block.header.height, m.block.hash P⟩ m.commitQc m.view
  simp only [and_true] at hstate
  rw [← hstate]
  apply node_eq_iff
  simp only [state_adopt]
  rfl

theorem same_adopt_iff {app : α} : r.Same { r with app := app, node := r.node.adopt P m } ↔
    app = r.app ∧ CoreHolds P r.node m := by
  have hpending : (∀ h, (r.node.adopt P m).core.state.getPending h =
      r.node.core.state.getPending h) ↔
        r.node.core.state.getPending (m.block.hash P) = some m.block := by
    rw [← getPending_insertPending_eq_iff, state_adopt]
    rfl
  constructor
  · rintro ⟨happ, -, -, hp, hn⟩
    obtain ⟨hl, hq, hv⟩ := node_adopt_eq_iff.mp hn
    exact ⟨happ, hpending.mp hp, hl, hq, hv⟩
  · rintro ⟨rfl, hp, hl, hq, hv⟩
    exact ⟨rfl, fun _ => rfl, rfl, hpending.mpr hp, node_adopt_eq_iff.mpr ⟨hl, hq, hv⟩⟩

theorem storage_adopted : (r.adopted P m).1 = { r.storage with
    blocks := r.storage.blocks.insert m.blockHash m.block
    lastCommitted := some ⟨m.height, m.view, m.blockHash⟩
    lastVotedView := some m.view
    locked := some ⟨m.view, m.block.header.height, m.block.hash P⟩
    highQc := some m.commitQc } := rfl

theorem storage_adopted_eq_iff :
    (∀ h, (r.adopted P m).1.blocks.get? h = r.storage.blocks.get? h) ∧
      { (r.adopted P m).1 with blocks := r.storage.blocks } = r.storage ↔
    StoreHolds P r.storage m := by
  rw [storage_adopted]
  constructor
  · rintro ⟨hb, hs⟩
    refine ⟨?_, (congrArg Storage.lastCommitted hs).symm, (congrArg Storage.lastVotedView hs).symm,
      (congrArg Storage.locked hs).symm, (congrArg Storage.highQc hs).symm⟩
    rw [← hb]
    exact Table.get?_insert_self _ _ _
  · intro hs
    constructor
    · intro h
      show Table.get? (r.storage.blocks.insert m.blockHash m.block) h = _
      rw [Table.get?_insert]
      split_ifs with he
      · rw [he, hs.block]
      · rfl
    · rw [← hs.lastCommitted, ← hs.lastVotedView, ← hs.locked, ← hs.highQc]

theorem same_adopted_iff {app : α} :
    r.Same ⟨app, (r.adopted P m).1, (r.adopted P m).2⟩ ↔ app = r.app ∧ CoreHolds P r.node m ∧
      StoreHolds P r.storage m ∧ m.height ≤ r.node.lastCommittedHeight := by
  have hnode : (r.adopted P m).2 = (r.node.adopt P m).raiseCommitted m := rfl
  by_cases hlt : r.node.lastCommittedHeight < m.height
  · constructor
    · intro h
      have hh := congrArg ConsensusNode.lastCommittedHeight h.node
      have hraise := ConsensusNode.lastCommittedHeight_raiseCommitted (r.node.adopt P m) m
      have hadopt : (r.node.adopt P m).lastCommittedHeight = r.node.lastCommittedHeight := rfl
      simp only [hnode, hraise, hadopt] at hh
      omega
    · rintro ⟨-, -, -, hle⟩
      omega
  · have hkeep : (r.adopted P m).2 = r.node.adopt P m := if_neg hlt
    rw [hkeep]
    constructor
    · rintro ⟨happ, hb, hs, hp, hn⟩
      have hsame : r.Same { r with app := app, node := r.node.adopt P m } :=
        ⟨happ, fun _ => rfl, rfl, hp, hn⟩
      exact ⟨happ, (same_adopt_iff.mp hsame).2, storage_adopted_eq_iff.mp ⟨hb, hs⟩, by omega⟩
    · rintro ⟨happ, hcore, hstore, -⟩
      obtain ⟨-, -, -, hp, hn⟩ := same_adopt_iff.mpr ⟨happ, hcore⟩
      obtain ⟨hb, hs⟩ := storage_adopted_eq_iff.mpr hstore
      exact ⟨happ, hb, hs, hp, hn⟩

/-- A restore that fails leaves the replica as it was exactly when it restores cleanly. -/
theorem same_of_error_iff (A : Application α) (P : Primitives) (written : Bool) (r : FullNode α)
    (m : SnapshotManifest) (payload : Bytes) :
    (∀ e, (r.restoreFromSnapshot A P written m payload).2 = .error e →
      r.Same (r.restoreFromSnapshot A P written m payload).1) ↔
    r.RestoresCleanly A P written m payload := by
  have ho := outcome_restoreFromSnapshot A P written r m payload
  generalize r.restoreFromSnapshot A P written m payload = result at ho ⊢
  unfold RestoresCleanly
  cases ho with
  | refused taken => simp [taken, Same.of_app]
  | mismatched taken state => simp [taken, state, Same.of_app]
  | unwritten taken state write => simp [taken, state, write, same_adopt_iff]
  | undecoded taken state write decode =>
    have hno : ¬ HistoriesInstallable r.node m := by
      rintro ⟨set, key, bls, hd, -⟩
      rw [decode] at hd
      cases hd
    simp [taken, state, write, hno, same_adopted_iff]
  | unreplayed taken state write decode replay =>
    have hno : ¬ HistoriesInstallable r.node m := by
      rintro ⟨set, key, bls, hd, hcan⟩
      rw [decode] at hd
      obtain ⟨rfl, -⟩ := Prod.mk.inj (Except.ok.inj hd)
      exact replay hcan
    simp [taken, state, write, hno, same_adopted_iff]
  | restored taken state write decode replay =>
    have hyes : HistoriesInstallable r.node m := ⟨_, _, _, decode, replay⟩
    simp [taken, state, write, hyes]

end FullNode

namespace Sample

/-- The histories of the manifest have the boundary of view 14. -/
def withBoundary : SnapshotManifest :=
  { snapshotOf afterChange₂ with
    validatorHistory := ⟨[⟨0, [1, 2, 3, 4], [1, 1, 1, 1]⟩, ⟨14, [1, 2, 3, 4], [1, 1, 1, 2]⟩]⟩ }

/-- The application of a fresh node keeps a payload that does not match the manifest; a node that
has the manifest's boundary already keeps the manifest's lock when the boundary is refused. -/
theorem failed_restores_leave_traces :
    (∃ r ∈ fullNodeAfter [.boot],
      (snapshotOf changing).verify timed operatorHash r.node.validatorSet = .ok () ∧
      (r.restoreFromSnapshot counter timed true (snapshotOf changing) [7]).2 =
        .error (.stateCommitmentMismatch 1 0) ∧
      ¬ r.Same (r.restoreFromSnapshot counter timed true (snapshotOf changing) [7]).1) ∧
    ∃ r ∈ fullNodeAfter steady,
      withBoundary.verify timed operatorHash r.node.validatorSet = .ok () ∧
      (r.restoreFromSnapshot counter timed true withBoundary []).2 = .error .boundaryReplay ∧
      ¬ r.Same (r.restoreFromSnapshot counter timed true withBoundary []).1 := by
  constructor
  · obtain ⟨r, hr, hv, he, happ⟩ : ∃ r ∈ fullNodeAfter [.boot],
        (snapshotOf changing).verify timed operatorHash r.node.validatorSet = .ok () ∧
        (r.restoreFromSnapshot counter timed true (snapshotOf changing) [7]).2 =
          .error (.stateCommitmentMismatch 1 0) ∧
        (r.restoreFromSnapshot counter timed true (snapshotOf changing) [7]).1.app ≠ r.app := by
      decide +kernel
    exact ⟨r, hr, hv, he, fun h => happ h.app⟩
  · obtain ⟨r, hr, hv, he, hlock⟩ : ∃ r ∈ fullNodeAfter steady,
        withBoundary.verify timed operatorHash r.node.validatorSet = .ok () ∧
        (r.restoreFromSnapshot counter timed true withBoundary []).2 = .error .boundaryReplay ∧
        (r.restoreFromSnapshot counter timed true withBoundary []).1.node.core.state.locked ≠
          r.node.core.state.locked := by
      decide +kernel
    exact ⟨r, hr, hv, he, fun h => hlock (congrArg (fun n => n.core.state.locked) h.node)⟩

end Sample

end Boule
