import Boule.Node.Restore

/-! What a successful restore does to a node's progress, and which histories it installs. -/
namespace Boule
open HotStuffState

/-! ### How far a node has come -/

structure Progress where
  committedHeight : ℕ
  lockedView : ℕ
  highQcView : ℕ
  lastVotedView : ℕ
  deriving DecidableEq

/-- Not behind in any of the four. -/
structure Progress.AtMost (a b : Progress) : Prop where
  committedHeight : a.committedHeight ≤ b.committedHeight
  lockedView : a.lockedView ≤ b.lockedView
  highQcView : a.highQcView ≤ b.highQcView
  lastVotedView : a.lastVotedView ≤ b.lastVotedView

instance (a b : Progress) : Decidable (a.AtMost b) :=
  decidable_of_iff (_ ∧ _ ∧ _ ∧ _)
    ⟨fun h => ⟨h.1, h.2.1, h.2.2.1, h.2.2.2⟩, fun h => ⟨h.1, h.2, h.3, h.4⟩⟩

/-- On disk; a missing record counts as view zero. -/
def Storage.progress (s : Storage) : Progress where
  committedHeight := (s.lastCommitted.map LastCommitted.height).getD 0
  lockedView := (s.locked.map Locked.view).getD 0
  highQcView := (s.highQc.map QuorumCertificate.view).getD 0
  lastVotedView := s.durableVotedView

/-- In memory. -/
def ConsensusNode.progress (n : ConsensusNode) : Progress where
  committedHeight := n.lastCommittedHeight
  lockedView := (n.core.state.locked.map Locked.view).getD 0
  highQcView := (n.core.state.highQc.map QuorumCertificate.view).getD 0
  lastVotedView := n.core.state.lastVotedView

/-- What the manifest's block and certificate amount to. -/
def SnapshotManifest.progress (m : SnapshotManifest) : Progress where
  committedHeight := m.height
  lockedView := m.view
  highQcView := m.commitQc.view
  lastVotedView := m.view

theorem sameProgress_replayBoundaries (c : HotStuffCore) (set : ValidatorSetHistory) :
    (replayBoundaries c set.iter).1.state.locked = c.state.locked ∧
      (replayBoundaries c set.iter).1.state.highQc = c.state.highQc ∧
      (replayBoundaries c set.iter).1.state.lastVotedView = c.state.lastVotedView := by
  obtain ⟨genesis, rest, hb⟩ := set.exists_boundaries_eq_cons
  rcases replayBoundaries_iter_eq c hb with ⟨-, history, vs, hr, -⟩ | ⟨-, hr⟩
  · rw [hr]
    exact ⟨rfl, rfl, rfl⟩
  · rw [hr]
    exact ⟨rfl, rfl, rfl⟩

namespace FullNode
variable {α : Type} {A : Application α} {P : Primitives} {written : Bool} {r : FullNode α}
  {m : SnapshotManifest} {payload : Bytes}

/-- In memory and on disk. -/
def NotBehind (r r' : FullNode α) : Prop :=
  r.node.progress.AtMost r'.node.progress ∧ r.storage.progress.AtMost r'.storage.progress

instance (r r' : FullNode α) : Decidable (r.NotBehind r') := inferInstanceAs (Decidable (_ ∧ _))

/-- The manifest is not behind the lock, the high certificate, or anything on disk. -/
structure ManifestAhead (r : FullNode α) (m : SnapshotManifest) : Prop where
  lockedView : r.node.progress.lockedView ≤ m.view
  highQcView : r.node.progress.highQcView ≤ m.commitQc.view
  durable : r.storage.progress.AtMost m.progress

theorem progress_adopted : (r.adopted P m).1.progress = m.progress ∧
    (r.adopted P m).2.progress = ⟨max r.node.lastCommittedHeight m.height, m.view,
      m.commitQc.view, max r.node.core.state.lastVotedView m.view⟩ := by
  refine ⟨rfl, ?_⟩
  have hheight : (r.adopted P m).2.lastCommittedHeight =
      max r.node.lastCommittedHeight m.height :=
    ConsensusNode.lastCommittedHeight_raiseCommitted (r.node.adopt P m) m
  have hvoted : (r.adopted P m).2.core.state.lastVotedView =
      max r.node.core.state.lastVotedView m.view := by
    rw [core_adopted]
    simp only [HotStuffCore.adoptSnapshot, insertPending_lastVotedView]
    split_ifs <;> omega
  unfold ConsensusNode.progress
  rw [hheight, hvoted, core_adopted]
  rfl

/-- A restore that succeeds moves nothing backwards exactly when the manifest is ahead. -/
theorem notBehind_restore_iff
    (h : (r.restoreFromSnapshot A P written m payload).2 = .ok ()) :
    r.NotBehind (r.restoreFromSnapshot A P written m payload).1 ↔ r.ManifestAhead m := by
  have ho := outcome_restoreFromSnapshot A P written r m payload
  generalize r.restoreFromSnapshot A P written m payload = result at ho h
  cases ho with
  | restored taken state write decode replay =>
    rename_i set key bls
    obtain ⟨hdisk, hmemory⟩ := progress_adopted (P := P) (r := r) (m := m)
    obtain ⟨hlocked, hqc, hvoted⟩ := sameProgress_replayBoundaries (r.adopted P m).2.core set
    have hnode : (ConsensusNode.install (r.adopted P m).1 (r.adopted P m).2 set key bls).2.progress
        = (r.adopted P m).2.progress := by
      unfold ConsensusNode.progress
      simp only [ConsensusNode.install, hlocked, hqc, hvoted]
    have hstore : (ConsensusNode.install (r.adopted P m).1 (r.adopted P m).2 set key
        bls).1.progress = m.progress := hdisk
    unfold NotBehind
    rw [hnode, hstore, hmemory]
    constructor
    · rintro ⟨hm, hd⟩
      exact ⟨hm.lockedView, hm.highQcView, hd⟩
    · rintro ⟨hl, hq, hd⟩
      exact ⟨⟨le_max_left _ _, hl, hq, le_max_left _ _⟩, hd⟩
  | _ => cases h

/-! ### The histories of a restored node -/

/-- The node's histories have the commitment that the manifest was verified against, and core
and selector use the node's validator history. -/
structure HistoriesMatch (R : HistoryPrimitives) (m : SnapshotManifest) (n : ConsensusNode) :
    Prop where
  commitment : validatorHistoryCommitmentV2 R n.histories =
    m.block.header.validatorHistoryCommitment
  core : n.core.state.validatorHistory = n.validatorHistory
  selector : n.selectorHistory = n.validatorHistory

/-- The node has the manifest's operator history already, and its core has no boundary but the
manifest's first. -/
structure HistoriesFit (m : SnapshotManifest) (n : ConsensusNode) : Prop where
  operator : ∀ h ∈ m.rebuiltHistories, n.operatorKeyHistory.toPersisted =
    (h.operator.map OperatorKeyHistory.toPersisted).getD ⟨[]⟩
  core : ∀ h ∈ m.rebuiltHistories,
    n.core.state.validatorHistory.boundaries = h.set.boundaries.take 1

/-- Two operator histories with one hash are equal. -/
def OperatorHashInjective (R : HistoryPrimitives) : Prop :=
  ∀ set key bls, Function.Injective (R.historyHash set key bls)

theorem rebuiltHistories_of_decode {set : ValidatorSetHistory} {key : ValidatorKeyHistory}
    {bls : Option BlsKeyHistory} {h : Histories} (hd : m.decodeHistories = .ok (set, key, bls))
    (hr : m.rebuiltHistories = some h) : h.set = set ∧ h.key = key ∧ h.bls = bls := by
  obtain ⟨hset, hkey, hbls, -⟩ := SnapshotManifest.rebuiltHistories_eq_some.mp hr
  simp only [SnapshotManifest.decodeHistories, hset, hkey, Except.mapError] at hd
  cases hb : m.blsKeyHistory with
  | none =>
    rw [hb] at hbls hd
    cases hd
    exact ⟨rfl, rfl, (Option.some.inj hbls).symm⟩
  | some p =>
    rw [hb] at hbls hd
    obtain ⟨bls', hp, he⟩ := Option.map_eq_some_iff.mp hbls
    simp only [toOption_eq_some.mp hp] at hd
    cases hd
    exact ⟨rfl, rfl, he.symm⟩

theorem operatorKeyHistory_adopted :
    (r.adopted P m).2.operatorKeyHistory = r.node.operatorKeyHistory := by
  unfold adopted ConsensusNode.raiseCommitted
  split_ifs <;> rfl

/-- The installed histories have the commitment of the decoded ones exactly when the operator
history is the same. -/
theorem commitment_install_iff {R : HistoryPrimitives} (hinj : OperatorHashInjective R)
    (storage : Storage) (n : ConsensusNode) (h : Histories) :
    validatorHistoryCommitmentV2 R (ConsensusNode.install storage n h.set h.key h.bls).2.histories =
        validatorHistoryCommitmentV2 R h ↔
      n.operatorKeyHistory.toPersisted =
        (h.operator.map OperatorKeyHistory.toPersisted).getD ⟨[]⟩ :=
  (hinj h.set.toPersisted h.key.toPersisted (h.bls.map BlsKeyHistory.toPersisted)).eq_iff

/-- The core ends with the installed history exactly when it had its first boundary only. -/
theorem replayed_eq_iff {c : HotStuffCore} {set : ValidatorSetHistory} (hcan : c.CanReplay set) :
    (replayBoundaries c set.iter).1.state.validatorHistory = set ↔
      c.state.validatorHistory.boundaries = set.boundaries.take 1 := by
  obtain ⟨genesis, rest, hb⟩ := set.exists_boundaries_eq_cons
  rcases replayBoundaries_iter_eq c hb with ⟨-, history, vs, hr, hboundaries⟩ | ⟨hno, -⟩
  · rw [hr, hb]
    simp only [List.take_succ_cons, List.take_zero]
    constructor
    · rintro rfl
      rw [hb, List.cons_eq_append_iff] at hboundaries
      rcases hboundaries with ⟨hnil, -⟩ | ⟨bs, hc, hrest⟩
      · exact absurd hnil c.state.validatorHistory.boundaries_ne_nil
      · have hlen := congrArg List.length hrest
        rw [List.length_append] at hlen
        obtain rfl := List.eq_nil_of_length_eq_zero (show bs.length = 0 by omega)
        exact hc
    · intro hc
      apply ValidatorSetHistory.eq_of_boundaries
      rw [hboundaries, hc, hb, List.singleton_append]
  · exact absurd hcan hno

/-- A restored node has the histories of the snapshot block exactly when it had what the restore
does not install: the operator history, and a core without boundaries of its own. -/
theorem historiesMatch_restore_iff {R : HistoryPrimitives} {vs : ValidatorSet}
    (hinj : OperatorHashInjective R) (hv : m.verify P R vs = .ok ())
    (h : (r.restoreFromSnapshot A P written m payload).2 = .ok ()) :
    HistoriesMatch R m (r.restoreFromSnapshot A P written m payload).1.node ↔
      HistoriesFit m r.node := by
  have ho := outcome_restoreFromSnapshot A P written r m payload
  generalize r.restoreFromSnapshot A P written m payload = result at ho h
  cases ho with
  | restored taken state write decode replay =>
    obtain ⟨hist, hrebuilt, hcommit⟩ := (SnapshotManifest.verify_eq_ok.mp hv).histories
    obtain ⟨rfl, rfl, rfl⟩ := rebuiltHistories_of_decode decode hrebuilt
    have hoperator := commitment_install_iff hinj (r.adopted P m).1 (r.adopted P m).2 hist
    have hcore := replayed_eq_iff ((canReplay_adopted (P := P) (m := m)).mpr replay)
    rw [hcommit, operatorKeyHistory_adopted] at hoperator
    rw [validatorHistory_adopted] at hcore
    constructor
    · rintro ⟨hc, hcv, -⟩
      refine ⟨?_, ?_⟩
      · intro h' hh
        obtain rfl := Option.some.inj (hrebuilt.symm.trans hh)
        exact hoperator.mp hc
      · intro h' hh
        obtain rfl := Option.some.inj (hrebuilt.symm.trans hh)
        exact hcore.mp hcv
    · rintro ⟨hop, hfit⟩
      exact ⟨hoperator.mpr (hop hist hrebuilt), hcore.mpr (hfit hist hrebuilt), rfl⟩
  | _ => cases h

end FullNode

namespace Sample

/-- A fresh node moves forward. -/
theorem fresh_not_behind : ∃ r ∈ fullNodeAfter [.boot],
    (r.restoreFromSnapshot counter timed true (snapshotOf changing) []).2 = .ok () ∧
    r.NotBehind (r.restoreFromSnapshot counter timed true (snapshotOf changing) []).1 := by
  obtain ⟨r, hr, hok, hl, hq, hd⟩ : ∃ r ∈ fullNodeAfter [.boot],
      (r.restoreFromSnapshot counter timed true (snapshotOf changing) []).2 = .ok () ∧
      r.node.progress.lockedView ≤ (snapshotOf changing).view ∧
      r.node.progress.highQcView ≤ (snapshotOf changing).commitQc.view ∧
      r.storage.progress.AtMost (snapshotOf changing).progress := by decide +kernel
  exact ⟨r, hr, hok, (FullNode.notBehind_restore_iff hok).mpr ⟨hl, hq, hd⟩⟩

/-- A node that has voted in view 13 restores the snapshot of view 10: its lock goes from view 11
to 10, its high certificate from 12 to 10, its stored vote from 13 to 10. -/
theorem steady_moved_back : ∃ r ∈ fullNodeAfter steady,
    (snapshotOf changing).verify timed operatorHash r.node.validatorSet = .ok () ∧
    (r.restoreFromSnapshot counter timed true (snapshotOf changing) []).2 = .ok () ∧
    r.storage.progress = ⟨1, 11, 12, 13⟩ ∧
    (r.restoreFromSnapshot counter timed true (snapshotOf changing) []).1.storage.progress =
      ⟨1, 10, 10, 10⟩ ∧
    ¬ r.NotBehind (r.restoreFromSnapshot counter timed true (snapshotOf changing) []).1 := by
  decide +kernel

theorem operatorHash_injective : FullNode.OperatorHashInjective operatorHash := by
  intro set key bls a b h
  exact validators_injective (Encodable.encode_injective h)

/-- A fresh node has the histories of a snapshot without operators. -/
theorem fresh_histories_match : ∃ r ∈ fullNodeAfter [.boot], FullNode.HistoriesMatch operatorHash
    (snapshotOf changing)
    (r.restoreFromSnapshot counter timed true (snapshotOf changing) []).1.node := by
  obtain ⟨r, hr, hv, hok, hop, hcore⟩ : ∃ r ∈ fullNodeAfter [.boot],
      (snapshotOf changing).verify timed operatorHash r.node.validatorSet = .ok () ∧
      (r.restoreFromSnapshot counter timed true (snapshotOf changing) []).2 = .ok () ∧
      (∀ h ∈ (snapshotOf changing).rebuiltHistories, r.node.operatorKeyHistory.toPersisted =
        (h.operator.map OperatorKeyHistory.toPersisted).getD ⟨[]⟩) ∧
      (∀ h ∈ (snapshotOf changing).rebuiltHistories,
        r.node.core.state.validatorHistory.boundaries = h.set.boundaries.take 1) := by
    decide +kernel
  have hmatch := FullNode.historiesMatch_restore_iff operatorHash_injective hv hok
  exact ⟨r, hr, hmatch.mpr ⟨hop, hcore⟩⟩

/-- Validator 1 has the operator key 9. -/
def operators : PersistedKeyHistory := ⟨[⟨1, [⟨0, 9⟩]⟩]⟩

/-- The block commits to the operators. -/
def operated : Block :=
  { changing with header := { changing.header with
      validatorHistoryCommitment := operatorHash.historyHash ⟨[]⟩ ⟨[]⟩ none operators } }

def withOperators : SnapshotManifest :=
  { snapshotOf operated with operatorKeyHistory := some operators }

/-- The operators of the snapshot are not installed. -/
theorem operators_lost : ∃ r ∈ fullNodeAfter [.boot],
    withOperators.verify timed operatorHash r.node.validatorSet = .ok () ∧
    (r.restoreFromSnapshot counter timed true withOperators []).2 = .ok () ∧
    ¬ FullNode.HistoriesMatch operatorHash withOperators
      (r.restoreFromSnapshot counter timed true withOperators []).1.node := by
  obtain ⟨r, hr, hv, hok, hne⟩ : ∃ r ∈ fullNodeAfter [.boot],
      withOperators.verify timed operatorHash r.node.validatorSet = .ok () ∧
      (r.restoreFromSnapshot counter timed true withOperators []).2 = .ok () ∧
      validatorHistoryCommitmentV2 operatorHash
        (r.restoreFromSnapshot counter timed true withOperators []).1.node.histories ≠
        withOperators.block.header.validatorHistoryCommitment := by decide +kernel
  exact ⟨r, hr, hv, hok, fun h => hne h.commitment⟩

end Sample

end Boule
