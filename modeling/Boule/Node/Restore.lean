import Boule.Node.Boundaries
import Boule.Snapshot
import Mathlib.Logic.Equiv.List

/-! `restore_from_snapshot` in full: the application, the safety core, the store and the
histories, and its outcomes by the first step that fails. -/
namespace Boule
open HotStuffState

/-- The application, as far as snapshots use it; `restore` also says whether the payload was
taken. -/
structure Application (α : Type) where
  restore : α → Bytes → α × Bool
  stateCommitment : α → Bytes32
  snapshot : α → Bytes

/-- A node with its application and its store. -/
structure FullNode (α : Type) where
  app : α
  storage : Storage
  node : ConsensusNode

inductive RestoreError where
  | application
  | stateCommitmentMismatch (postRestore manifest : Bytes32)
  | storage
  | validatorHistory (e : PersistedHistoryError)
  | validatorKeyHistory (e : PersistedKeyError)
  | blsKeyHistory (e : PersistedKeyError)
  | boundaryReplay
  deriving DecidableEq

/-- The histories that a restore installs, in the order in which it decodes them. -/
def SnapshotManifest.decodeHistories (m : SnapshotManifest) :
    Except RestoreError (ValidatorSetHistory × ValidatorKeyHistory × Option BlsKeyHistory) := do
  let set ← (ValidatorSetHistory.fromPersisted m.validatorHistory).mapError .validatorHistory
  let key ← (ValidatorKeyHistory.fromPersisted m.validatorKeyHistory).mapError
    .validatorKeyHistory
  match m.blsKeyHistory with
  | none => return (set, key, none)
  | some p =>
    let bls ← (BlsKeyHistory.fromPersisted p).mapError .blsKeyHistory
    return (set, key, some bls)

namespace ConsensusNode

/-- The histories of a node, as the replay takes them. -/
def histories (n : ConsensusNode) : Histories :=
  ⟨n.validatorHistory, n.validatorKeyHistory, n.blsKeyHistory, some n.operatorKeyHistory⟩

end ConsensusNode

namespace FullNode
variable {α : Type}

/-- `written` says whether the batch of the block, the commit record and the safety record
succeeds. The writes of the histories after it are not checked by the code and succeed here. -/
def restoreFromSnapshot (A : Application α) (P : Primitives) (written : Bool) (r : FullNode α)
    (m : SnapshotManifest) (payload : Bytes) : FullNode α × Except RestoreError Unit :=
  let app := (A.restore r.app payload).1
  if !(A.restore r.app payload).2 then ({ r with app := app }, .error .application)
  else if A.stateCommitment app ≠ m.stateCommitment then
    ({ r with app := app },
      .error (.stateCommitmentMismatch (A.stateCommitment app) m.stateCommitment))
  else if !written then ({ r with app := app, node := r.node.adopt P m }, .error .storage)
  else
    let (storage, node, installed) := r.node.restoreFromSnapshot P r.storage m
    (⟨app, storage, node⟩,
      if installed then .ok ()
      else
        match m.decodeHistories with
        | .error e => .error e
        | .ok _ => .error .boundaryReplay)

end FullNode

/-! ### The steps of a restore -/

/-- The core takes the nonzero boundaries of the history: they are all above its last one. -/
def HotStuffCore.CanReplay (c : HotStuffCore) (set : ValidatorSetHistory) : Prop :=
  ∀ b ∈ set.boundaries, b.vEff ≠ 0 → c.state.validatorHistory.last.vEff < b.vEff

instance (c : HotStuffCore) (set : ValidatorSetHistory) : Decidable (c.CanReplay set) :=
  inferInstanceAs (Decidable (∀ b ∈ set.boundaries, _))

/-- The replay of a history either takes all its boundaries or refuses the first. -/
theorem replayBoundaries_iter_eq (c : HotStuffCore) {set : ValidatorSetHistory}
    {genesis : ValidatorSet} {rest : List Boundary} (hb : set.boundaries = ⟨0, genesis⟩ :: rest) :
    (c.CanReplay set ∧ ∃ history validatorSet, replayBoundaries c set.iter =
        ({ c with state := { c.state with
            validatorHistory := history
            validatorSet := validatorSet } }, true) ∧
      history.boundaries = c.state.validatorHistory.boundaries ++ rest) ∨
    (¬ c.CanReplay set ∧ replayBoundaries c set.iter = (c, false)) := by
  have hsorted : (rest.map Boundary.vEff).Pairwise (· < ·) ∧ ∀ b ∈ rest, 0 < b.vEff := by
    have hs := set.sorted
    rw [hb, List.map_cons, List.pairwise_cons] at hs
    exact ⟨hs.2, fun b hmem => hs.1 _ (List.mem_map_of_mem hmem)⟩
  have hiter : replayBoundaries c set.iter =
      replayBoundaries c (rest.map fun b => (b.vEff, b.set)) := by
    unfold ValidatorSetHistory.iter
    rw [hb, List.map_cons, replayBoundaries, if_pos rfl]
  have hcan : c.CanReplay set ↔ ∀ b ∈ rest, c.state.validatorHistory.last.vEff < b.vEff := by
    unfold HotStuffCore.CanReplay
    rw [hb]
    constructor
    · intro h b hmem
      exact h b (List.mem_cons_of_mem _ hmem) (hsorted.2 b hmem).ne'
    · intro h b hmem hne
      rcases List.mem_cons.mp hmem with rfl | hmem
      · exact absurd rfl hne
      · exact h b hmem
  by_cases h : c.CanReplay set
  · refine .inl ⟨h, ?_⟩
    rw [hiter]
    apply replayBoundaries_boundaries
    rw [List.map_append, List.pairwise_append]
    refine ⟨c.state.validatorHistory.sorted, hsorted.1, ?_⟩
    intro a ha v hv
    obtain ⟨b, hmem, rfl⟩ := List.mem_map.mp hv
    exact lt_of_le_of_lt (c.state.validatorHistory.vEff_le_last ha) (hcan.mp h b hmem)
  · refine .inr ⟨h, ?_⟩
    rw [hiter]
    cases rest with
    | nil => exact absurd (hcan.mpr (by simp)) h
    | cons b bs =>
      have hle : b.vEff ≤ c.state.validatorHistory.last.vEff := by
        by_contra hlt
        apply h
        rw [hcan]
        intro b' hmem
        rcases List.mem_cons.mp hmem with rfl | hmem
        · omega
        · have := (List.pairwise_cons.mp hsorted.1).1 _ (List.mem_map_of_mem hmem)
          omega
      have hrefuse : c.insertValidatorBoundary b.vEff b.set =
          .error c.state.validatorHistory.last.vEff := by
        unfold HotStuffCore.insertValidatorBoundary ValidatorSetHistory.insertBoundary
        rw [dif_pos hle]
        rfl
      rw [List.map_cons, replayBoundaries, if_neg (hsorted.2 b List.mem_cons_self).ne', hrefuse]

namespace ConsensusNode

/-- Histories that do not decode are not installed. -/
theorem installHistories_of_error {m : SnapshotManifest} {e : RestoreError}
    (h : m.decodeHistories = .error e) (storage : Storage) (n : ConsensusNode) :
    installHistories storage n m = (storage, n, false) := by
  unfold installHistories
  unfold SnapshotManifest.decodeHistories at h
  cases hset : ValidatorSetHistory.fromPersisted m.validatorHistory with
  | error e => rfl
  | ok set =>
    cases hkey : ValidatorKeyHistory.fromPersisted m.validatorKeyHistory with
    | error e => rfl
    | ok key =>
      rw [hset, hkey] at h
      cases hb : m.blsKeyHistory with
      | none =>
        rw [hb] at h
        cases h
      | some p =>
        rw [hb] at h
        cases hbls : BlsKeyHistory.fromPersisted p with
        | error e => simp [hbls, Except.toOption]
        | ok bls =>
          simp only [hbls] at h
          cases h

/-- The stores and fields that an installation sets. -/
def install (storage : Storage) (n : ConsensusNode) (set : ValidatorSetHistory)
    (key : ValidatorKeyHistory) (bls : Option BlsKeyHistory) : Storage × ConsensusNode :=
  ({ storage with
      validatorHistory := some set.toPersisted
      validatorKeyHistory := some key.toPersisted
      blsKeyHistory := (bls.map BlsKeyHistory.toPersisted).or storage.blsKeyHistory },
    { n with
      core := (replayBoundaries n.core set.iter).1
      selectorHistory := set
      validatorSet := set.currentSet
      validatorHistory := set
      validatorKeyHistory := key
      blsKeyHistory := bls })

theorem installHistories_of_ok {m : SnapshotManifest} {set : ValidatorSetHistory}
    {key : ValidatorKeyHistory} {bls : Option BlsKeyHistory}
    (h : m.decodeHistories = .ok (set, key, bls)) (storage : Storage) (n : ConsensusNode) :
    installHistories storage n m =
      if (replayBoundaries n.core set.iter).2 then
        ((install storage n set key bls).1, (install storage n set key bls).2, true)
      else (storage, { n with core := (replayBoundaries n.core set.iter).1 }, false) := by
  obtain ⟨set', hset, h⟩ := bind_eq_ok.mp h
  obtain ⟨key', hkey, h⟩ := bind_eq_ok.mp h
  have hset' := mapError_eq_ok.mp hset
  have hkey' := mapError_eq_ok.mp hkey
  unfold installHistories install
  cases hb : m.blsKeyHistory with
  | none =>
    rw [hb] at h
    obtain ⟨rfl, hrest⟩ := Prod.mk.inj (Except.ok.inj h)
    obtain ⟨rfl, rfl⟩ := Prod.mk.inj hrest
    cases hr : (replayBoundaries n.core set'.iter).2 <;>
      simp [hset', hkey', hr, Except.toOption]
  | some p =>
    rw [hb] at h
    obtain ⟨bls', hbls, h⟩ := bind_eq_ok.mp h
    have hbls' := mapError_eq_ok.mp hbls
    obtain ⟨rfl, hrest⟩ := Prod.mk.inj (Except.ok.inj h)
    obtain ⟨rfl, rfl⟩ := Prod.mk.inj hrest
    cases hr : (replayBoundaries n.core set'.iter).2 <;>
      simp [hset', hkey', hbls', hr, Except.toOption]

end ConsensusNode

namespace FullNode
variable {α : Type} {A : Application α} {P : Primitives} {written : Bool} {r : FullNode α}
  {m : SnapshotManifest} {payload : Bytes}

/-- The replica before the histories are installed. -/
def adopted (P : Primitives) (r : FullNode α) (m : SnapshotManifest) : Storage × ConsensusNode :=
  (ConsensusNode.writeSnapshot r.storage m
    (r.node.core.adoptSnapshot P m.block m.commitQc m.view).2, (r.node.adopt P m).raiseCommitted m)

theorem core_adopted : (r.adopted P m).2.core =
    (r.node.core.adoptSnapshot P m.block m.commitQc m.view).1 := by
  unfold adopted ConsensusNode.raiseCommitted
  split_ifs <;> rfl

theorem validatorHistory_adopted : (r.adopted P m).2.core.state.validatorHistory =
    r.node.core.state.validatorHistory := by
  rw [core_adopted]
  exact insertPending_validatorHistory P r.node.core.state m.block

/-- The outcomes of a restore, by the first step that fails. -/
inductive Outcome (A : Application α) (P : Primitives) (written : Bool) (r : FullNode α)
    (m : SnapshotManifest) (payload : Bytes) : FullNode α × Except RestoreError Unit → Prop
  | refused (taken : (A.restore r.app payload).2 = false) :
    Outcome A P written r m payload
      ({ r with app := (A.restore r.app payload).1 }, .error .application)
  | mismatched (taken : (A.restore r.app payload).2 = true)
    (state : A.stateCommitment (A.restore r.app payload).1 ≠ m.stateCommitment) :
    Outcome A P written r m payload ({ r with app := (A.restore r.app payload).1 },
      .error (.stateCommitmentMismatch (A.stateCommitment (A.restore r.app payload).1)
        m.stateCommitment))
  | unwritten (taken : (A.restore r.app payload).2 = true)
    (state : A.stateCommitment (A.restore r.app payload).1 = m.stateCommitment)
    (write : written = false) :
    Outcome A P written r m payload
      ({ r with app := (A.restore r.app payload).1, node := r.node.adopt P m }, .error .storage)
  | undecoded (taken : (A.restore r.app payload).2 = true)
    (state : A.stateCommitment (A.restore r.app payload).1 = m.stateCommitment)
    (write : written = true) {e : RestoreError} (decode : m.decodeHistories = .error e) :
    Outcome A P written r m payload
      (⟨(A.restore r.app payload).1, (r.adopted P m).1, (r.adopted P m).2⟩, .error e)
  | unreplayed (taken : (A.restore r.app payload).2 = true)
    (state : A.stateCommitment (A.restore r.app payload).1 = m.stateCommitment)
    (write : written = true) {set : ValidatorSetHistory} {key : ValidatorKeyHistory}
    {bls : Option BlsKeyHistory} (decode : m.decodeHistories = .ok (set, key, bls))
    (replay : ¬ r.node.core.CanReplay set) :
    Outcome A P written r m payload
      (⟨(A.restore r.app payload).1, (r.adopted P m).1, (r.adopted P m).2⟩,
        .error .boundaryReplay)
  | restored (taken : (A.restore r.app payload).2 = true)
    (state : A.stateCommitment (A.restore r.app payload).1 = m.stateCommitment)
    (write : written = true) {set : ValidatorSetHistory} {key : ValidatorKeyHistory}
    {bls : Option BlsKeyHistory} (decode : m.decodeHistories = .ok (set, key, bls))
    (replay : r.node.core.CanReplay set) :
    Outcome A P written r m payload (⟨(A.restore r.app payload).1,
      (ConsensusNode.install (r.adopted P m).1 (r.adopted P m).2 set key bls).1,
      (ConsensusNode.install (r.adopted P m).1 (r.adopted P m).2 set key bls).2⟩, .ok ())

theorem canReplay_adopted {set : ValidatorSetHistory} :
    (r.adopted P m).2.core.CanReplay set ↔ r.node.core.CanReplay set := by
  unfold HotStuffCore.CanReplay
  rw [validatorHistory_adopted]

theorem outcome_restoreFromSnapshot (A : Application α) (P : Primitives) (written : Bool)
    (r : FullNode α) (m : SnapshotManifest) (payload : Bytes) :
    Outcome A P written r m payload (r.restoreFromSnapshot A P written m payload) := by
  have heq : r.node.restoreFromSnapshot P r.storage m =
      ConsensusNode.installHistories (r.adopted P m).1 (r.adopted P m).2 m := rfl
  unfold restoreFromSnapshot
  cases htaken : (A.restore r.app payload).2 with
  | false =>
    simp only [Bool.not_false, if_true]
    exact .refused htaken
  | true =>
    simp only [Bool.not_true, Bool.false_eq_true, if_false]
    by_cases hstate : A.stateCommitment (A.restore r.app payload).1 = m.stateCommitment
    · rw [if_neg (not_not.mpr hstate)]
      cases written with
      | false => exact .unwritten htaken hstate rfl
      | true =>
        simp only [Bool.not_true, Bool.false_eq_true, if_false, heq]
        cases hd : m.decodeHistories with
        | error e =>
          simp only [ConsensusNode.installHistories_of_error hd]
          exact .undecoded htaken hstate rfl hd
        | ok histories =>
          obtain ⟨set, key, bls⟩ := histories
          obtain ⟨genesis, rest, hb⟩ := set.exists_boundaries_eq_cons
          simp only [ConsensusNode.installHistories_of_ok hd]
          rcases replayBoundaries_iter_eq (r.adopted P m).2.core hb with
            ⟨hcan, history, vs, hr, -⟩ | ⟨hcan, hr⟩
          · simp only [hr, if_true]
            exact .restored htaken hstate rfl hd (canReplay_adopted.mp hcan)
          · simp only [hr]
            exact .unreplayed htaken hstate rfl hd (mt canReplay_adopted.mpr hcan)
    · rw [if_pos hstate]
      exact .mismatched htaken hstate

end FullNode

/-! ### A small instance -/

namespace Sample

/-- The state is a number; a payload of that length restores it. -/
def counter : Application ℕ where
  restore := fun _ payload => (payload.length, true)
  stateCommitment := fun n => n
  snapshot := fun n => List.replicate n 0

/-- No rotation decodes, and the hash is the operator history, written as a number. -/
def operatorHash : HistoryPrimitives where
  toReconfigPrimitives := weightChanges
  decodeRotation := fun _ => none
  decodeCancel := fun _ => none
  decodeOperatorRotation := fun _ => none
  decodeOperatorKeyRotation := fun _ => none
  rotationVerifies := fun _ _ _ _ => true
  cancelVerifies := fun _ _ _ _ => true
  operatorKeyRotationVerifies := fun _ _ _ _ => true
  historyHash := fun _ _ _ op => Encodable.encode
    (op.validators.map fun v => (v.stableId, v.entries.map fun e => (e.vEff, e.key)))

theorem validators_injective : Function.Injective fun p : PersistedKeyHistory =>
    p.validators.map fun v => (v.stableId, v.entries.map fun e => (e.vEff, e.key)) := by
  rintro ⟨vs⟩ ⟨vs'⟩ h
  have hentry : Function.Injective fun e : KeyEntry => (e.vEff, e.key) := by
    rintro ⟨v, k⟩ ⟨v', k'⟩ he
    obtain ⟨rfl, rfl⟩ := Prod.mk.inj he
    rfl
  have hvalidator : Function.Injective fun v : PersistedValidator =>
      (v.stableId, v.entries.map fun e => (e.vEff, e.key)) := by
    rintro ⟨id, es⟩ ⟨id', es'⟩ he
    obtain ⟨hid, hes⟩ := Prod.mk.inj he
    have hentries : es = es' := List.map_injective_iff.mpr hentry hes
    exact PersistedValidator.mk.injEq .. |>.mpr ⟨hid, hentries⟩
  have hvalidators : vs = vs' := List.map_injective_iff.mpr hvalidator h
  rw [hvalidators]

/-- Four proposals, each interpreted before the next one comes; the last commits the change. -/
def steady : List NodeInput :=
  [.boot, proposed changing (genesisQc timed root validators)] ++ rounds 8 ++
    [proposed afterChange (certificate changing)] ++ rounds 8 ++
    [proposed afterChange₂ (certificate afterChange)] ++ rounds 8 ++
    [proposed (deciding 13) (certificate afterChange₂)] ++ rounds 8

def fullNodeAfter (inputs : List NodeInput) : Option (FullNode ℕ) :=
  let m := (run watchNode .start inputs).machine
  m.process.map fun p => ⟨0, m.storage, p.node⟩

end Sample

end Boule
