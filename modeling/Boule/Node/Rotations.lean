import Boule.Lib.Run
import Boule.Node.Restore

/-! The rotations of a committed block as a running node applies them, and when the node ends
with the histories that a replay of the block computes. -/
namespace Boule
open ConsensusNode

/-- One command of a loop that notes whether any was applied; a failed one is passed over. -/
def noteApplied {α ε : Type} (apply : α → Bytes → Except ε (α × Bool)) (progress : α × Bool)
    (bytes : Bytes) : α × Bool :=
  match apply progress.1 bytes with
  | .error _ => progress
  | .ok (a, applied) => (a, progress.2 || applied)

section
variable (R : HistoryPrimitives) (chainId : ChainId)

/-- The body of the first loop of `apply_committed_rotations`; `none` stands for a failed
`expect`. -/
def applyCommittedRotation (blockView : ℕ) (progress : Histories × Bool) (bytes : Bytes) :
    Option (Histories × Bool) :=
  match acceptedRotation R chainId blockView progress.1.key bytes with
  | none => some progress
  | some (rotation, stableId, key) => do
    let newBlsPk ← rotation.newBlsPubkey
    let bls ← progress.1.bls
    let stableId ← stableId
    return ({ progress.1 with
      key := key
      bls := some (keepOnError (bls.applyRotation stableId rotation.vEff newBlsPk) bls) }, true)

/-- Histories are written when a command was applied. -/
def ConsensusNode.applyCommittedRotations (storage : Storage) (n : ConsensusNode)
    (block : Block) : Option (Storage × ConsensusNode) := do
  let blockView := block.header.view
  let rotated ← block.commands.foldlM (applyCommittedRotation R chainId blockView)
    (n.histories, false)
  let cancelled := block.commands.foldl
    (noteApplied (applyRotationCancelCommand R chainId blockView)) rotated
  let (h, applied) := block.commands.foldl
    (noteApplied (applyOperatorRotationCommand R chainId blockView n.operatorKeyHistory))
    cancelled
  let (operator, operatorChanged) := block.commands.foldl
    (noteApplied (applyOperatorKeyRotationCommand R chainId blockView))
    (n.operatorKeyHistory, false)
  return ({ storage with
      operatorKeyHistory :=
        if operatorChanged then some operator.toPersisted else storage.operatorKeyHistory
      validatorKeyHistory :=
        if applied then some h.key.toPersisted else storage.validatorKeyHistory
      blsKeyHistory :=
        if applied then (h.bls.map BlsKeyHistory.toPersisted).or storage.blsKeyHistory
        else storage.blsKeyHistory },
    { n with
      validatorKeyHistory := h.key
      blsKeyHistory := h.bls
      operatorKeyHistory := operator })

/-- What a commit does to the histories: the reconfigurations of the block, then its
rotations. -/
def ConsensusNode.applyCommittedHistories (minVEffDelay : ℕ) (storage : Storage)
    (n : ConsensusNode) (block : Block) : Option (Storage × ConsensusNode) :=
  let (storage, n) :=
    n.applyCommittedReconfigs R.toReconfigPrimitives minVEffDelay chainId storage block
  n.applyCommittedRotations R chainId storage block

end

/-! ### The bodies of the replay's loops -/

section
variable (R : HistoryPrimitives) (chainId : ChainId) (commitView : ℕ)

def cancelOrSkip (h : Histories) (bytes : Bytes) : Histories :=
  ((applyRotationCancelCommand R chainId commitView h bytes).toOption.map Prod.fst).getD h

def operatorRotateOrSkip (operator : OperatorKeyHistory) (h : Histories) (bytes : Bytes) :
    Histories :=
  ((applyOperatorRotationCommand R chainId commitView operator h bytes).toOption.map
    Prod.fst).getD h

def operatorKeyRotateOrSkip (operator : OperatorKeyHistory) (bytes : Bytes) :
    OperatorKeyHistory :=
  ((applyOperatorKeyRotationCommand R chainId commitView operator bytes).toOption.map
    Prod.fst).getD operator

end

/-! ### The ids that histories know -/

theorem Table.containsKey_insert {K V : Type} [DecidableEq K] (t : Table K V) (k k' : K) (v : V) :
    Table.containsKey (t.insert k v) k' = (decide (k' = k) || t.containsKey k') := by
  unfold Table.containsKey
  rw [Table.get?_insert]
  split_ifs with h <;> simp [h]

/-- Replacing the entries of a known id adds none. -/
theorem Table.containsKey_replace {K V : Type} [DecidableEq K] {t : Table K V} {k : K} {v : V}
    (h : t.get? k = some v) (v' : V) :
    Table.containsKey (t.insert k v') = t.containsKey := by
  funext k'
  rw [Table.containsKey_insert]
  by_cases hk : k' = k
  · rw [hk, (Table.containsKey_iff t k).mpr ⟨v, h⟩]
    simp
  · simp [hk]

namespace Histories

/-- The ids with entries in the key histories. -/
def ids (h : Histories) : (NodeId → Bool) × Option (NodeId → Bool) × Option (NodeId → Bool) :=
  (h.key.byStableId.containsKey, h.bls.map fun b => b.byStableId.containsKey,
    h.operator.map fun op => op.byStableId.containsKey)

end Histories

theorem appendEntry_eq_ok {t t' : Table NodeId (List KeyEntry)} {stableId vEff key : ℕ} :
    appendEntry t stableId vEff key = .ok t' ↔ ∃ entries last, t.get? stableId = some entries ∧
      entries.getLast? = some last ∧ last.vEff < vEff ∧
      t' = t.insert stableId (entries ++ [⟨vEff, key⟩]) := by
  simp only [appendEntry, bind_eq_ok, okOr_eq_ok, require_eq_ok, decide_eq_true_iff, exists_const]
  constructor
  · rintro ⟨entries, he, last, hl, hlt, ht⟩
    exact ⟨entries, last, he, hl, hlt, (Except.ok.inj ht).symm⟩
  · rintro ⟨entries, last, he, hl, hlt, rfl⟩
    exact ⟨entries, he, last, hl, hlt, rfl⟩

theorem ValidatorKeyHistory.applyRotation_eq_ok {key key' : ValidatorKeyHistory}
    {rotation : ValidatorKeyRotation} {commitView : ℕ}
    (h : key.applyRotation rotation commitView = .ok key') :
    ∃ id entries last, key.pubkeyToStableId.get? rotation.validator = some id ∧
      (∀ owner, key.pubkeyToStableId.get? rotation.newPubkey = some owner → owner = id) ∧
      key.byStableId.get? id = some entries ∧ entries.getLast? = some last ∧
      last.vEff < rotation.vEff ∧
      key' = ⟨key.byStableId.insert id (entries ++ [⟨rotation.vEff, rotation.newPubkey⟩]),
        key.pubkeyToStableId.insert rotation.newPubkey id⟩ := by
  obtain ⟨_, -, h⟩ := bind_eq_ok.mp h
  obtain ⟨id, hid, h⟩ := bind_eq_ok.mp h
  obtain ⟨_, hcollide, h⟩ := bind_eq_ok.mp h
  obtain ⟨entries, he, h⟩ := bind_eq_ok.mp h
  obtain ⟨last, hl, h⟩ := bind_eq_ok.mp h
  obtain ⟨_, hlt, h⟩ := bind_eq_ok.mp h
  refine ⟨id, entries, last, okOr_eq_ok.mp hid, ?_, okOr_eq_ok.mp he, okOr_eq_ok.mp hl,
    of_decide_eq_true (require_eq_ok.mp hlt), (Except.ok.inj h).symm⟩
  intro owner howner
  have hnone := refuse_eq_ok.mp hcollide
  rw [howner] at hnone
  by_contra hne
  simp [hne] at hnone

theorem ValidatorKeyHistory.cancelPendingRotation_eq_ok {key key' : ValidatorKeyHistory}
    {validator : NodeId} {cancellingVEff commitView : ℕ} :
    key.cancelPendingRotation validator cancellingVEff commitView = .ok key' ↔
      ∃ id entries last, key.pubkeyToStableId.get? validator = some id ∧
        key.byStableId.get? id = some entries ∧ entries.getLast? = some last ∧
        last.vEff = cancellingVEff ∧ commitView < cancellingVEff ∧
        key' = ⟨key.byStableId.insert id entries.dropLast,
          key.pubkeyToStableId.erase last.key⟩ := by
  simp only [cancelPendingRotation, bind_eq_ok, okOr_eq_ok, require_eq_ok, Bool.and_eq_true,
    decide_eq_true_iff, exists_const]
  constructor
  · rintro ⟨id, hid, entries, he, last, hl, ⟨hv, hlt⟩, hk⟩
    exact ⟨id, entries, last, hid, he, hl, hv, hlt, (Except.ok.inj hk).symm⟩
  · rintro ⟨id, entries, last, hid, he, hl, hv, hlt, rfl⟩
    exact ⟨id, hid, entries, he, last, hl, ⟨hv, hlt⟩, rfl⟩

theorem BlsKeyHistory.cancelPendingRotation_eq_ok {h h' : BlsKeyHistory} {stableId : NodeId}
    {cancellingVEff commitView : ℕ} :
    h.cancelPendingRotation stableId cancellingVEff commitView = .ok h' ↔
      ∃ entries last, h.byStableId.get? stableId = some entries ∧ entries.getLast? = some last ∧
        last.vEff = cancellingVEff ∧ commitView < cancellingVEff ∧
        h' = ⟨h.byStableId.insert stableId entries.dropLast⟩ := by
  simp only [cancelPendingRotation, bind_eq_ok, okOr_eq_ok, require_eq_ok, Bool.and_eq_true,
    decide_eq_true_iff, exists_const]
  constructor
  · rintro ⟨entries, he, last, hl, ⟨hv, hlt⟩, hk⟩
    exact ⟨entries, last, he, hl, hv, hlt, (Except.ok.inj hk).symm⟩
  · rintro ⟨entries, last, he, hl, hv, hlt, rfl⟩
    exact ⟨entries, he, last, hl, ⟨hv, hlt⟩, rfl⟩

theorem ids_appendEntry {t t' : Table NodeId (List KeyEntry)} {stableId vEff key : ℕ}
    (h : appendEntry t stableId vEff key = .ok t') : t'.containsKey = t.containsKey := by
  obtain ⟨entries, last, he, -, -, rfl⟩ := appendEntry_eq_ok.mp h
  exact Table.containsKey_replace he _

theorem ValidatorKeyHistory.ids_applyRotation {h h' : ValidatorKeyHistory}
    {rotation : ValidatorKeyRotation} {commitView : ℕ}
    (hr : h.applyRotation rotation commitView = .ok h') :
    h'.byStableId.containsKey = h.byStableId.containsKey := by
  obtain ⟨_, _, _, -, -, he, -, -, rfl⟩ := applyRotation_eq_ok hr
  exact Table.containsKey_replace he _

theorem ValidatorKeyHistory.ids_cancelPendingRotation {h h' : ValidatorKeyHistory}
    {validator : NodeId} {cancellingVEff commitView : ℕ}
    (hr : h.cancelPendingRotation validator cancellingVEff commitView = .ok h') :
    h'.byStableId.containsKey = h.byStableId.containsKey := by
  obtain ⟨_, _, _, -, he, -, -, -, rfl⟩ := cancelPendingRotation_eq_ok.mp hr
  exact Table.containsKey_replace he _

theorem keepOnError_keeps {ε α γ : Type} {r : Except ε α} {a : α} {f : α → γ}
    (h : ∀ b, r = .ok b → f b = f a) : f (keepOnError r a) = f a := by
  unfold keepOnError
  cases r with
  | error e => rfl
  | ok b => exact h b rfl

namespace BlsKeyHistory

theorem ids_applyRotation (h : BlsKeyHistory) (stableId vEff key : ℕ) :
    (keepOnError (h.applyRotation stableId vEff key) h).byStableId.containsKey =
      h.byStableId.containsKey := by
  apply keepOnError_keeps (f := fun b : BlsKeyHistory => b.byStableId.containsKey)
  intro h' hr
  obtain ⟨_, hs, rfl⟩ := map_eq_ok.mp hr
  exact ids_appendEntry hs

theorem ids_cancelPendingRotation (h : BlsKeyHistory) (stableId cancellingVEff commitView : ℕ) :
    (keepOnError (h.cancelPendingRotation stableId cancellingVEff commitView)
      h).byStableId.containsKey = h.byStableId.containsKey := by
  apply keepOnError_keeps (f := fun b : BlsKeyHistory => b.byStableId.containsKey)
  intro h' hr
  obtain ⟨_, _, he, -, -, -, rfl⟩ := cancelPendingRotation_eq_ok.mp hr
  exact Table.containsKey_replace he _

end BlsKeyHistory

theorem OperatorKeyHistory.ids_applyRotation {h h' : OperatorKeyHistory} {stableId vEff key : ℕ}
    (hr : h.applyRotation stableId vEff key = .ok h') :
    h'.byStableId.containsKey = h.byStableId.containsKey := by
  obtain ⟨_, hs, rfl⟩ := map_eq_ok.mp hr
  exact ids_appendEntry hs

theorem map_rotateBls (bls : Option BlsKeyHistory) (stable : NodeId)
    (rotation : ValidatorKeyRotation) :
    (rotateBls bls stable rotation).map (fun b => b.byStableId.containsKey) =
      bls.map fun b => b.byStableId.containsKey := by
  unfold rotateBls
  cases rotation.newBlsPubkey with
  | none => rfl
  | some pk =>
    cases bls with
    | none => rfl
    | some b => exact congrArg some (b.ids_applyRotation stable rotation.vEff pk)

section
variable {R : HistoryPrimitives} {chainId : ChainId} {commitView : ℕ}

/-- An accepted rotation names a known validator and has a BLS key. -/
structure Rotates (commitView : ℕ) (key : ValidatorKeyHistory) (rotation : ValidatorKeyRotation)
    (stable : NodeId) (key' : ValidatorKeyHistory) : Prop where
  applied : key.applyRotation rotation commitView = .ok key'
  stable : key.validatorFor rotation.validator = some stable
  newBls : rotation.newBlsPubkey.isSome

theorem rotates_of_applied {key key' : ValidatorKeyHistory} {rotation : ValidatorKeyRotation}
    (happly : key.applyRotation rotation commitView = .ok key')
    (hscheme : rotation.validateSchemeConsistency R chainId = .ok ()) :
    ∃ stable, Rotates commitView key rotation stable key' := by
  have happlied := happly
  obtain ⟨_, -, happly⟩ := bind_eq_ok.mp happly
  obtain ⟨stable, hs, -⟩ := bind_eq_ok.mp happly
  refine ⟨stable, happlied, okOr_eq_ok.mp hs, ?_⟩
  unfold ValidatorKeyRotation.validateSchemeConsistency at hscheme
  cases hpk : rotation.newBlsPubkey with
  | none =>
    rw [hpk] at hscheme
    cases hscheme
  | some pk => rfl

theorem rotates_of_acceptedRotation {key key' : ValidatorKeyHistory} {bytes : Bytes}
    {rotation : ValidatorKeyRotation} {stable : Option ValidatorId}
    (h : acceptedRotation R chainId commitView key bytes = some (rotation, stable, key')) :
    ∃ id, stable = some id ∧ Rotates commitView key rotation id key' := by
  unfold acceptedRotation at h
  simp only [Option.bind_eq_bind] at h
  obtain ⟨env, -, h⟩ := Option.bind_eq_some_iff.mp h
  obtain ⟨current, -, h⟩ := Option.bind_eq_some_iff.mp h
  obtain ⟨_, -, h⟩ := Option.bind_eq_some_iff.mp h
  obtain ⟨_, hscheme, h⟩ := Option.bind_eq_some_iff.mp h
  obtain ⟨key'', happly, h⟩ := Option.bind_eq_some_iff.mp h
  simp only [Option.pure_def, Option.some.injEq, Prod.mk.injEq] at h
  obtain ⟨rfl, rfl, rfl⟩ := h
  obtain ⟨id, hr⟩ := rotates_of_applied (toOption_eq_some.mp happly) (toOption_eq_some.mp hscheme)
  exact ⟨id, hr.stable, hr⟩

/-! ### What one command does -/

theorem applyRotationCommand_of_none {h : Histories} {bytes : Bytes}
    (hn : acceptedRotation R chainId commitView h.key bytes = none) :
    applyRotationCommand R chainId commitView h bytes = h := by
  unfold applyRotationCommand
  rw [hn]

/-- An accepted rotation moves the two key histories together. -/
theorem applyRotationCommand_of_some {h : Histories} {bytes : Bytes}
    {rotation : ValidatorKeyRotation} {id : NodeId} {key : ValidatorKeyHistory}
    (ha : acceptedRotation R chainId commitView h.key bytes = some (rotation, some id, key)) :
    applyRotationCommand R chainId commitView h bytes =
      { h with key := key, bls := rotateBls h.bls id rotation } := by
  unfold applyRotationCommand
  rw [ha]

/-- The body of the node's loop does what the replay's does, or fails for want of a BLS
history. -/
theorem applyCommittedRotation_eq (h : Histories) (applied : Bool) (bytes : Bytes) :
    applyCommittedRotation R chainId commitView (h, applied) bytes =
      if (acceptedRotation R chainId commitView h.key bytes).isSome then
        if h.bls.isSome then some (applyRotationCommand R chainId commitView h bytes, true)
        else none
      else some (h, applied) := by
  unfold applyCommittedRotation
  cases ha : acceptedRotation R chainId commitView h.key bytes with
  | none => rfl
  | some accepted =>
    obtain ⟨rotation, stable, key⟩ := accepted
    obtain ⟨id, rfl, hr⟩ := rotates_of_acceptedRotation ha
    obtain ⟨pk, hpk⟩ := Option.isSome_iff_exists.mp hr.newBls
    rw [applyRotationCommand_of_some ha]
    unfold rotateBls
    simp only [hpk]
    cases hb : h.bls with
    | none => rfl
    | some bls => rfl

theorem ids_applyRotationCommand (h : Histories) (bytes : Bytes) :
    (applyRotationCommand R chainId commitView h bytes).ids = h.ids := by
  cases ha : acceptedRotation R chainId commitView h.key bytes with
  | none => rw [applyRotationCommand_of_none ha]
  | some accepted =>
    obtain ⟨rotation, stable, key⟩ := accepted
    obtain ⟨id, rfl, hr⟩ := rotates_of_acceptedRotation ha
    rw [applyRotationCommand_of_some ha]
    unfold Histories.ids
    simp only [ValidatorKeyHistory.ids_applyRotation hr.applied, map_rotateBls]

/-- A command that is no cancel is passed over; one that passes the checks changes the histories. -/
theorem applyRotationCancelCommand_eq_ok {h h' : Histories} {bytes : Bytes} {applied : Bool} :
    applyRotationCancelCommand R chainId commitView h bytes = .ok (h', applied) ↔
      rotationCancelTag.isPrefixOf bytes = false ∧ h' = h ∧ applied = false ∨
      ∃ cancel pendingNew stable current key,
        decodeTagged rotationCancelTag R.decodeCancel bytes = some cancel ∧
        h.key.pendingRotationNewKey cancel.payload.validator cancel.payload.cancellingVEff
          commitView = some pendingNew ∧
        h.key.validatorFor cancel.payload.validator = some stable ∧
        h.key.keyAt stable commitView = some current ∧
        cancel.verify R chainId current pendingNew = .ok () ∧
        h.key.cancelPendingRotation cancel.payload.validator cancel.payload.cancellingVEff
          commitView = .ok key ∧
        h' = { h with
          key := key
          bls := h.bls.map fun bls => keepOnError
            (bls.cancelPendingRotation stable cancel.payload.cancellingVEff commitView) bls } ∧
        applied = true := by
  unfold applyRotationCancelCommand
  constructor
  · intro hc
    split_ifs at hc with htag
    · obtain ⟨rfl, rfl⟩ := Prod.mk.inj (Except.ok.inj hc)
      exact .inl ⟨by simpa using htag, rfl, rfl⟩
    · obtain ⟨cancel, hcancel, hc⟩ := bind_eq_ok.mp hc
      obtain ⟨pendingNew, hpending, hc⟩ := bind_eq_ok.mp hc
      obtain ⟨stable, hstable, hc⟩ := bind_eq_ok.mp hc
      obtain ⟨current, hcurrent, hc⟩ := bind_eq_ok.mp hc
      obtain ⟨_, hverify, hc⟩ := bind_eq_ok.mp hc
      obtain ⟨key, hkey, hc⟩ := bind_eq_ok.mp hc
      obtain ⟨rfl, rfl⟩ := Prod.mk.inj (Except.ok.inj hc)
      exact .inr ⟨cancel, pendingNew, stable, current, key, okOr_eq_ok.mp hcancel,
        okOr_eq_ok.mp hpending, okOr_eq_ok.mp hstable, okOr_eq_ok.mp hcurrent,
        mapError_eq_ok.mp hverify, mapError_eq_ok.mp hkey, rfl, rfl⟩
  · rintro (⟨htag, rfl, rfl⟩ | ⟨cancel, pendingNew, stable, current, key, hcancel, hpending,
      hstable, hcurrent, hverify, hkey, rfl, rfl⟩)
    · rw [htag]
      rfl
    · rw [tag_of_decodeTagged hcancel]
      exact bind_eq_ok.mpr ⟨cancel, okOr_eq_ok.mpr hcancel, bind_eq_ok.mpr ⟨pendingNew,
        okOr_eq_ok.mpr hpending, bind_eq_ok.mpr ⟨stable, okOr_eq_ok.mpr hstable,
          bind_eq_ok.mpr ⟨current, okOr_eq_ok.mpr hcurrent, bind_eq_ok.mpr ⟨(),
            mapError_eq_ok.mpr hverify, bind_eq_ok.mpr ⟨key, mapError_eq_ok.mpr hkey, rfl⟩⟩⟩⟩⟩⟩

theorem applyOperatorRotationCommand_eq_ok {operator : OperatorKeyHistory} {h h' : Histories}
    {bytes : Bytes} {applied : Bool} :
    applyOperatorRotationCommand R chainId commitView operator h bytes = .ok (h', applied) ↔
      operatorRotationTag.isPrefixOf bytes = false ∧ h' = h ∧ applied = false ∨
      ∃ env stable operatorPk key,
        decodeTagged operatorRotationTag R.decodeOperatorRotation bytes = some env ∧
        h.key.validatorFor env.payload.validator = some stable ∧
        operator.keyAt stable commitView = some operatorPk ∧
        env.verify R chainId operatorPk = .ok () ∧
        env.payload.validateSchemeConsistency R chainId = .ok () ∧
        h.key.applyRotation env.payload commitView = .ok key ∧
        h' = { h with key := key, bls := rotateBls h.bls stable env.payload } ∧
        applied = true := by
  unfold applyOperatorRotationCommand
  constructor
  · intro hc
    split_ifs at hc with htag
    · obtain ⟨rfl, rfl⟩ := Prod.mk.inj (Except.ok.inj hc)
      exact .inl ⟨by simpa using htag, rfl, rfl⟩
    · obtain ⟨env, henv, hc⟩ := bind_eq_ok.mp hc
      obtain ⟨stable, hstable, hc⟩ := bind_eq_ok.mp hc
      obtain ⟨operatorPk, hoperator, hc⟩ := bind_eq_ok.mp hc
      obtain ⟨_, hverify, hc⟩ := bind_eq_ok.mp hc
      obtain ⟨_, hscheme, hc⟩ := bind_eq_ok.mp hc
      obtain ⟨key, hkey, hc⟩ := bind_eq_ok.mp hc
      obtain ⟨rfl, rfl⟩ := Prod.mk.inj (Except.ok.inj hc)
      exact .inr ⟨env, stable, operatorPk, key, okOr_eq_ok.mp henv, okOr_eq_ok.mp hstable,
        okOr_eq_ok.mp hoperator, mapError_eq_ok.mp hverify, mapError_eq_ok.mp hscheme,
        mapError_eq_ok.mp hkey, rfl, rfl⟩
  · rintro (⟨htag, rfl, rfl⟩ | ⟨env, stable, operatorPk, key, henv, hstable, hoperator, hverify,
      hscheme, hkey, rfl, rfl⟩)
    · rw [htag]
      rfl
    · rw [tag_of_decodeTagged henv]
      exact bind_eq_ok.mpr ⟨env, okOr_eq_ok.mpr henv, bind_eq_ok.mpr ⟨stable,
        okOr_eq_ok.mpr hstable, bind_eq_ok.mpr ⟨operatorPk, okOr_eq_ok.mpr hoperator,
          bind_eq_ok.mpr ⟨(), mapError_eq_ok.mpr hverify, bind_eq_ok.mpr ⟨(),
            mapError_eq_ok.mpr hscheme, bind_eq_ok.mpr ⟨key, mapError_eq_ok.mpr hkey, rfl⟩⟩⟩⟩⟩⟩

theorem ids_applyRotationCancelCommand {h h' : Histories} {bytes : Bytes} {applied : Bool}
    (hc : applyRotationCancelCommand R chainId commitView h bytes = .ok (h', applied)) :
    h'.ids = h.ids := by
  rcases applyRotationCancelCommand_eq_ok.mp hc with
    ⟨-, rfl, -⟩ | ⟨cancel, _, stable, _, key, -, -, -, -, -, hkey, rfl, -⟩
  · rfl
  · unfold Histories.ids
    simp only [ValidatorKeyHistory.ids_cancelPendingRotation hkey, Option.map_map,
      Function.comp_def, BlsKeyHistory.ids_cancelPendingRotation]

theorem ids_applyOperatorRotationCommand {operator : OperatorKeyHistory} {h h' : Histories}
    {bytes : Bytes} {applied : Bool}
    (ho : applyOperatorRotationCommand R chainId commitView operator h bytes =
      .ok (h', applied)) : h'.ids = h.ids := by
  rcases applyOperatorRotationCommand_eq_ok.mp ho with
    ⟨-, rfl, -⟩ | ⟨env, stable, _, key, -, -, -, -, -, hkey, rfl, -⟩
  · rfl
  · unfold Histories.ids
    simp only [ValidatorKeyHistory.ids_applyRotation hkey, map_rotateBls]

theorem ids_applyOperatorKeyRotationCommand {operator operator' : OperatorKeyHistory}
    {bytes : Bytes} {applied : Bool}
    (ho : applyOperatorKeyRotationCommand R chainId commitView operator bytes =
      .ok (operator', applied)) :
    operator'.byStableId.containsKey = operator.byStableId.containsKey := by
  unfold applyOperatorKeyRotationCommand at ho
  split_ifs at ho
  · obtain ⟨rfl, -⟩ := Prod.mk.inj (Except.ok.inj ho)
    rfl
  · obtain ⟨env, -, ho⟩ := bind_eq_ok.mp ho
    obtain ⟨current, -, ho⟩ := bind_eq_ok.mp ho
    obtain ⟨_, -, ho⟩ := bind_eq_ok.mp ho
    obtain ⟨op, hop, ho⟩ := bind_eq_ok.mp ho
    obtain ⟨rfl, -⟩ := Prod.mk.inj (Except.ok.inj ho)
    exact OperatorKeyHistory.ids_applyRotation (mapError_eq_ok.mp hop)

/-! ### What the loops do -/

/-- A loop that passes over failed commands keeps what each accepted command keeps. -/
theorem foldl_accepted_keeps {α ε γ : Type} {apply : α → Bytes → Except ε (α × Bool)} {f : α → γ}
    (h : ∀ {a a' bytes applied}, apply a bytes = .ok (a', applied) → f a' = f a) (a : α)
    (commands : List Bytes) :
    f (commands.foldl (fun a bytes => ((apply a bytes).toOption.map Prod.fst).getD a) a) =
      f a := by
  apply foldl_keeps
  intro a bytes
  cases ha : apply a bytes with
  | error e => rfl
  | ok r =>
    obtain ⟨a', applied⟩ := r
    exact h ha

variable (R chainId) in
theorem ids_cancelRotations (block : Block) (h : Histories) :
    (cancelRotations R chainId block h).ids = h.ids :=
  foldl_accepted_keeps (fun hc => ids_applyRotationCancelCommand hc) h block.commands

variable (R chainId) in
theorem ids_applyOperatorRotations (operator : OperatorKeyHistory) (block : Block)
    (h : Histories) : (applyOperatorRotations R chainId operator block h).ids = h.ids :=
  foldl_accepted_keeps (fun ho => ids_applyOperatorRotationCommand ho) h block.commands

variable (R chainId) in
theorem ids_applyOperatorKeyRotations (block : Block) (operator : OperatorKeyHistory) :
    (applyOperatorKeyRotations R chainId block operator).byStableId.containsKey =
      operator.byStableId.containsKey :=
  foldl_accepted_keeps (f := fun op : OperatorKeyHistory => op.byStableId.containsKey)
    (fun ho => ids_applyOperatorKeyRotationCommand ho) operator block.commands

/-- Whether a rotation is accepted, whatever the histories are when its turn comes: the first
accepted one meets the histories that the loop starts with. -/
def AcceptsNone (R : HistoryPrimitives) (chainId : ChainId) (key : ValidatorKeyHistory)
    (block : Block) : Prop :=
  ∀ bytes ∈ block.commands, acceptedRotation R chainId block.header.view key bytes = none

instance (key : ValidatorKeyHistory) (block : Block) :
    Decidable (AcceptsNone R chainId key block) :=
  inferInstanceAs (Decidable (∀ bytes ∈ block.commands, _))

variable (R chainId commitView) in
theorem foldlM_rotations_of_some {h : Histories} (hb : h.bls.isSome) (applied : Bool)
    (commands : List Bytes) : ∃ applied',
      commands.foldlM (applyCommittedRotation R chainId commitView) (h, applied) =
        some (commands.foldl (applyRotationCommand R chainId commitView) h, applied') ∧
      (applied' = false → applied = false ∧
        commands.foldl (applyRotationCommand R chainId commitView) h = h) := by
  induction commands generalizing h applied with
  | nil => exact ⟨applied, rfl, fun ha => ⟨ha, rfl⟩⟩
  | cons bytes commands ih =>
    rw [List.foldlM_cons, applyCommittedRotation_eq, if_pos hb, List.foldl_cons]
    cases ha : acceptedRotation R chainId commitView h.key bytes with
    | none =>
      rw [applyRotationCommand_of_none ha]
      exact ih hb applied
    | some accepted =>
      obtain ⟨rotation, stable, key⟩ := accepted
      obtain ⟨id, rfl, hr⟩ := rotates_of_acceptedRotation ha
      have hb' : (applyRotationCommand R chainId commitView h bytes).bls.isSome := by
        rw [applyRotationCommand_of_some ha]
        unfold rotateBls
        obtain ⟨bls, hbls⟩ := Option.isSome_iff_exists.mp hb
        simp only [hbls]
        cases rotation.newBlsPubkey <;> rfl
      obtain ⟨applied', hfold, hflag⟩ := ih hb' true
      exact ⟨applied', hfold, fun hf => absurd (hflag hf).1 (by simp)⟩

theorem foldl_rotations_fixed {h : Histories} {commands : List Bytes}
    (ha : ∀ bytes ∈ commands, acceptedRotation R chainId commitView h.key bytes = none) :
    commands.foldl (applyRotationCommand R chainId commitView) h = h := by
  induction commands with
  | nil => rfl
  | cons bytes commands ih =>
    rw [List.foldl_cons, applyRotationCommand_of_none (ha bytes (List.mem_cons_self ..))]
    exact ih fun b hb => ha b (List.mem_cons_of_mem _ hb)

variable (R chainId commitView) in
/-- Without a BLS history the loop fails at the first accepted rotation. -/
theorem foldlM_rotations_of_none {h : Histories} (hb : h.bls = none) (applied : Bool)
    (commands : List Bytes) :
    ((∀ bytes ∈ commands, acceptedRotation R chainId commitView h.key bytes = none) →
      commands.foldlM (applyCommittedRotation R chainId commitView) (h, applied) =
        some (h, applied)) ∧
    (¬(∀ bytes ∈ commands, acceptedRotation R chainId commitView h.key bytes = none) →
      commands.foldlM (applyCommittedRotation R chainId commitView) (h, applied) = none) := by
  induction commands with
  | nil => exact ⟨fun _ => rfl, fun hn => absurd (by simp) hn⟩
  | cons bytes commands ih =>
    rw [List.foldlM_cons, applyCommittedRotation_eq, hb]
    simp only [List.forall_mem_cons]
    cases ha : acceptedRotation R chainId commitView h.key bytes with
    | none =>
      refine ⟨fun hall => ih.1 hall.2, fun hn => ih.2 fun hall => hn ⟨rfl, hall⟩⟩
    | some accepted => exact ⟨fun hall => absurd hall.1 (by simp), fun _ => rfl⟩

theorem foldl_noteApplied {α ε : Type} (apply : α → Bytes → Except ε (α × Bool))
    (progress : α × Bool) (commands : List Bytes) :
    (commands.foldl (noteApplied apply) progress).1 =
      commands.foldl (fun a bytes => ((apply a bytes).toOption.map Prod.fst).getD a)
        progress.1 := by
  induction commands generalizing progress with
  | nil => rfl
  | cons bytes commands ih =>
    rw [List.foldl_cons, List.foldl_cons, ih]
    congr 1
    unfold noteApplied
    cases apply progress.1 bytes <;> rfl

/-- While nothing has been noted, nothing has changed. -/
theorem noteApplied_unchanged {α ε : Type} {apply : α → Bytes → Except ε (α × Bool)}
    (h : ∀ {a a' bytes}, apply a bytes = .ok (a', false) → a' = a) (progress : α × Bool)
    (commands : List Bytes) (hf : (commands.foldl (noteApplied apply) progress).2 = false) :
    progress.2 = false ∧ (commands.foldl (noteApplied apply) progress).1 = progress.1 := by
  induction commands generalizing progress with
  | nil => exact ⟨hf, rfl⟩
  | cons bytes commands ih =>
    rw [List.foldl_cons] at hf ⊢
    obtain ⟨hflag, hsame⟩ := ih _ hf
    rw [hsame]
    unfold noteApplied at hflag ⊢
    cases ha : apply progress.1 bytes with
    | error e =>
      rw [ha] at hflag
      exact ⟨hflag, rfl⟩
    | ok r =>
      obtain ⟨a', applied⟩ := r
      rw [ha] at hflag
      obtain ⟨hp, rfl⟩ := Bool.or_eq_false_iff.mp hflag
      exact ⟨hp, h ha⟩

theorem operator_rotated (commands : List Bytes) (h : Histories) :
    (commands.foldl (applyRotationCommand R chainId commitView) h).operator = h.operator := by
  apply foldl_keeps (f := Histories.operator)
  intro h bytes
  unfold applyRotationCommand
  split <;> rfl

/-- The histories after a cancel that applies. -/
theorem histories_of_cancel {h h' : Histories} {bytes : Bytes}
    (hc : applyRotationCancelCommand R chainId commitView h bytes = .ok (h', true)) :
    ∃ cancel stable, decodeTagged rotationCancelTag R.decodeCancel bytes = some cancel ∧
      h.key.validatorFor cancel.payload.validator = some stable ∧
      h.key.cancelPendingRotation cancel.payload.validator cancel.payload.cancellingVEff
        commitView = .ok h'.key ∧
      h'.bls = h.bls.map fun bls => keepOnError
        (bls.cancelPendingRotation stable cancel.payload.cancellingVEff commitView) bls := by
  rcases applyRotationCancelCommand_eq_ok.mp hc with
    ⟨-, -, happlied⟩ | ⟨cancel, _, stable, _, key, hcancel, -, hstable, -, -, hkey, rfl, -⟩
  · cases happlied
  · exact ⟨cancel, stable, hcancel, hstable, hkey, rfl⟩

theorem applyRotationCancelCommand_keeps {h h' : Histories} {bytes : Bytes} {applied : Bool}
    (hc : applyRotationCancelCommand R chainId commitView h bytes = .ok (h', applied)) :
    h'.set = h.set ∧ h'.operator = h.operator ∧ (applied = false → h' = h) := by
  rcases applyRotationCancelCommand_eq_ok.mp hc with
    ⟨-, rfl, -⟩ | ⟨_, _, _, _, _, -, -, -, -, -, -, rfl, rfl⟩
  · exact ⟨rfl, rfl, fun _ => rfl⟩
  · exact ⟨rfl, rfl, Bool.noConfusion⟩

theorem applyOperatorRotationCommand_keeps {operator : OperatorKeyHistory} {h h' : Histories}
    {bytes : Bytes} {applied : Bool}
    (ho : applyOperatorRotationCommand R chainId commitView operator h bytes =
      .ok (h', applied)) :
    h'.set = h.set ∧ h'.operator = h.operator ∧ (applied = false → h' = h) := by
  rcases applyOperatorRotationCommand_eq_ok.mp ho with
    ⟨-, rfl, -⟩ | ⟨_, _, _, _, -, -, -, -, -, -, rfl, rfl⟩
  · exact ⟨rfl, rfl, fun _ => rfl⟩
  · exact ⟨rfl, rfl, Bool.noConfusion⟩

theorem applyOperatorKeyRotationCommand_keeps {operator operator' : OperatorKeyHistory}
    {bytes : Bytes}
    (ho : applyOperatorKeyRotationCommand R chainId commitView operator bytes =
      .ok (operator', false)) : operator' = operator := by
  unfold applyOperatorKeyRotationCommand at ho
  split_ifs at ho
  · exact (Prod.mk.inj (Except.ok.inj ho)).1.symm
  · obtain ⟨env, -, ho⟩ := bind_eq_ok.mp ho
    obtain ⟨current, -, ho⟩ := bind_eq_ok.mp ho
    obtain ⟨_, -, ho⟩ := bind_eq_ok.mp ho
    obtain ⟨op, -, ho⟩ := bind_eq_ok.mp ho
    have happlied := (Prod.mk.inj (Except.ok.inj ho)).2
    cases happlied

variable (R chainId) in
theorem foldlM_rotations (h : Histories) (block : Block) :
    (h.bls = none ∧ ¬AcceptsNone R chainId h.key block ∧
      block.commands.foldlM (applyCommittedRotation R chainId block.header.view) (h, false) =
        none) ∨
    ((h.bls = none → AcceptsNone R chainId h.key block) ∧ ∃ applied,
      block.commands.foldlM (applyCommittedRotation R chainId block.header.view) (h, false) =
        some (block.commands.foldl (applyRotationCommand R chainId block.header.view) h,
          applied) ∧
      (applied = false →
        block.commands.foldl (applyRotationCommand R chainId block.header.view) h = h)) := by
  cases hb : h.bls with
  | none =>
    obtain ⟨hnone, hsome⟩ := foldlM_rotations_of_none R chainId block.header.view hb false
      block.commands
    by_cases ha : AcceptsNone R chainId h.key block
    · have hfixed := foldl_rotations_fixed (h := h) ha
      right
      refine ⟨fun _ => ha, false, ?_, fun _ => hfixed⟩
      rw [hfixed]
      exact hnone ha
    · exact .inl ⟨rfl, ha, hsome ha⟩
  | some bls =>
    obtain ⟨applied, hfold, hflag⟩ := foldlM_rotations_of_some R chainId block.header.view
      (h := h) (by simp [hb]) false block.commands
    exact .inr ⟨by simp, applied, hfold, fun hf => (hflag hf).2⟩

/-- What the rotations of a block do to a node and to what it has stored. -/
structure CommittedRotations (R : HistoryPrimitives) (chainId : ChainId) (storage : Storage)
    (n : ConsensusNode) (block : Block) (storage' : Storage) (n' : ConsensusNode) : Prop where
  histories : n'.histories = applyRotationCommandsToHistories R chainId block n.histories
  node : n' = { n with
    validatorKeyHistory := n'.validatorKeyHistory
    blsKeyHistory := n'.blsKeyHistory
    operatorKeyHistory := n'.operatorKeyHistory }
  stored : storage' = { storage with
    validatorKeyHistory := storage'.validatorKeyHistory
    blsKeyHistory := storage'.blsKeyHistory
    operatorKeyHistory := storage'.operatorKeyHistory }
  keys : storage'.validatorKeyHistory = some n'.validatorKeyHistory.toPersisted ∧
      storage'.blsKeyHistory =
        (n'.blsKeyHistory.map BlsKeyHistory.toPersisted).or storage.blsKeyHistory ∨
    storage'.validatorKeyHistory = storage.validatorKeyHistory ∧
      storage'.blsKeyHistory = storage.blsKeyHistory ∧
      n'.validatorKeyHistory = n.validatorKeyHistory ∧ n'.blsKeyHistory = n.blsKeyHistory
  operator : storage'.operatorKeyHistory = some n'.operatorKeyHistory.toPersisted ∨
    storage'.operatorKeyHistory = storage.operatorKeyHistory ∧
      n'.operatorKeyHistory = n.operatorKeyHistory

variable (R chainId) in
theorem applyRotationCommandsToHistories_eq (block : Block) (h : Histories)
    (op : OperatorKeyHistory) (hop : h.operator = some op) :
    applyRotationCommandsToHistories R chainId block h =
      { applyOperatorRotations R chainId op block (cancelRotations R chainId block
          (block.commands.foldl (applyRotationCommand R chainId block.header.view) h)) with
        operator := some (applyOperatorKeyRotations R chainId block op) } := by
  have hcancelled : (cancelRotations R chainId block
      (block.commands.foldl (applyRotationCommand R chainId block.header.view) h)).operator =
      some op := by
    rw [← hop, ← operator_rotated block.commands h]
    exact foldl_accepted_keeps (f := Histories.operator)
      (fun hc => (applyRotationCancelCommand_keeps hc).2.1) _ _
  unfold applyRotationCommandsToHistories
  simp only [hcancelled]

theorem set_rotated (block : Block) (h : Histories) :
    (applyRotationCommandsToHistories R chainId block h).set = h.set := by
  have hrotated : (block.commands.foldl (applyRotationCommand R chainId block.header.view)
      h).set = h.set := by
    apply foldl_keeps (f := Histories.set)
    intro h bytes
    unfold applyRotationCommand
    split <;> rfl
  have hcancelled : (cancelRotations R chainId block
      (block.commands.foldl (applyRotationCommand R chainId block.header.view) h)).set = h.set := by
    rw [← hrotated]
    exact foldl_accepted_keeps (f := Histories.set)
      (fun hc => (applyRotationCancelCommand_keeps hc).1) _ _
  unfold applyRotationCommandsToHistories
  simp only
  split
  · exact hcancelled
  · rw [← hcancelled]
    exact foldl_accepted_keeps (f := Histories.set)
      (fun ho => (applyOperatorRotationCommand_keeps ho).1) _ _

variable (R chainId) in
/-- The rotations of a block leave the ids with entries as they are. -/
theorem ids_applyRotationCommandsToHistories (block : Block) (h : Histories) :
    (applyRotationCommandsToHistories R chainId block h).ids = h.ids := by
  have hrotated : (block.commands.foldl (applyRotationCommand R chainId block.header.view)
      h).ids = h.ids :=
    foldl_keeps (f := Histories.ids) (fun h bytes => ids_applyRotationCommand h bytes) h _
  have hcancelled := (ids_cancelRotations R chainId block
    (block.commands.foldl (applyRotationCommand R chainId block.header.view) h)).trans hrotated
  unfold applyRotationCommandsToHistories
  simp only
  split
  · exact hcancelled
  · rename_i op hop
    have hops := (ids_applyOperatorRotations R chainId op block
      (cancelRotations R chainId block
        (block.commands.foldl (applyRotationCommand R chainId block.header.view) h))).trans
        hcancelled
    obtain ⟨hkey, hrest⟩ := Prod.mk.inj hops
    obtain ⟨hbls, -⟩ := Prod.mk.inj hrest
    have hoperator := congrArg some (ids_applyOperatorKeyRotations R chainId
      block op)
    have hthird := (Prod.mk.inj (Prod.mk.inj hcancelled).2).2
    rw [hop] at hthird
    exact Prod.ext hkey (Prod.ext hbls (hoperator.trans hthird))

/-- The loops over cancels and operator rotations compute what the replay does, and note every
change. -/
theorem signingLoops_result (op : OperatorKeyHistory) (block : Block) (progress : Histories × Bool)
    {cancelled rotated : Histories × Bool}
    (hcancel : block.commands.foldl
      (noteApplied (applyRotationCancelCommand R chainId block.header.view)) progress = cancelled)
    (hrotate : block.commands.foldl (noteApplied (applyOperatorRotationCommand R chainId
      block.header.view op)) cancelled = rotated) :
    rotated.1 = applyOperatorRotations R chainId op block
        (cancelRotations R chainId block progress.1) ∧
      (rotated.2 = false → progress.2 = false ∧ rotated.1 = progress.1) := by
  have hcancelled := foldl_noteApplied
    (applyRotationCancelCommand R chainId block.header.view) progress block.commands
  have hrotated := foldl_noteApplied (applyOperatorRotationCommand R chainId block.header.view op)
    cancelled block.commands
  rw [hcancel] at hcancelled
  rw [hrotate, hcancelled] at hrotated
  refine ⟨hrotated, fun hnone => ?_⟩
  have hlast := noteApplied_unchanged (fun ho => (applyOperatorRotationCommand_keeps ho).2.2 rfl)
    cancelled block.commands ((congrArg Prod.snd hrotate).trans hnone)
  have hmiddle := noteApplied_unchanged (fun hc => (applyRotationCancelCommand_keeps hc).2.2 rfl)
    progress block.commands ((congrArg Prod.snd hcancel).trans hlast.1)
  rw [hrotate] at hlast
  rw [hcancel] at hmiddle
  exact ⟨hmiddle.1, hlast.2.trans hmiddle.2⟩

theorem operatorLoop_result (op : OperatorKeyHistory) (block : Block)
    {operators : OperatorKeyHistory × Bool}
    (hoperator : block.commands.foldl
      (noteApplied (applyOperatorKeyRotationCommand R chainId block.header.view)) (op, false) =
        operators) :
    operators.1 = applyOperatorKeyRotations R chainId block op ∧
      (operators.2 = false → operators.1 = op) := by
  have hoperators := foldl_noteApplied (applyOperatorKeyRotationCommand R chainId
    block.header.view) (op, false) block.commands
  rw [hoperator] at hoperators
  refine ⟨hoperators, fun hnone => ?_⟩
  have hlast := noteApplied_unchanged (fun ho => applyOperatorKeyRotationCommand_keeps ho)
    (op, false) block.commands ((congrArg Prod.snd hoperator).trans hnone)
  rw [hoperator] at hlast
  exact hlast.2

theorem committedRotations_of_some {storage storage' : Storage} {n n' : ConsensusNode}
    {block : Block}
    (h : n.applyCommittedRotations R chainId storage block = some (storage', n')) :
    CommittedRotations R chainId storage n block storage' n' := by
  unfold applyCommittedRotations at h
  simp only [Option.bind_eq_bind] at h
  rcases foldlM_rotations R chainId n.histories block with
    ⟨-, -, hnone⟩ | ⟨-, applied, hfold, hflag⟩
  · rw [hnone] at h
    cases h
  · rw [hfold, Option.bind_some] at h
    generalize hcancel : block.commands.foldl
      (noteApplied (applyRotationCancelCommand R chainId block.header.view))
      (block.commands.foldl (applyRotationCommand R chainId block.header.view) n.histories,
        applied) = cancelled at h
    generalize hrotate : block.commands.foldl (noteApplied (applyOperatorRotationCommand R chainId
      block.header.view n.operatorKeyHistory)) cancelled = rotated at h
    generalize hoperator : block.commands.foldl
      (noteApplied (applyOperatorKeyRotationCommand R chainId block.header.view))
      (n.operatorKeyHistory, false) = operators at h
    obtain ⟨h', rotatedAny⟩ := rotated
    obtain ⟨operator, operatorAny⟩ := operators
    obtain ⟨rfl, rfl⟩ := Prod.mk.inj (Option.some.inj h)
    obtain ⟨hh, hsigning⟩ := signingLoops_result _ block _ hcancel hrotate
    obtain ⟨hop, hsame⟩ := operatorLoop_result _ block hoperator
    have hreplay := applyRotationCommandsToHistories_eq R chainId block
      n.histories n.operatorKeyHistory rfl
    rw [← hh, ← hop] at hreplay
    have hset : h'.set = n.validatorHistory :=
      (congrArg Histories.set hreplay).symm.trans (set_rotated block n.histories)
    constructor
    · rw [hreplay, ← hset]
      rfl
    · rfl
    · rfl
    · cases rotatedAny with
      | true => exact .inl ⟨rfl, rfl⟩
      | false =>
        obtain ⟨hnone, hunchanged⟩ := hsigning rfl
        have hkept : h' = n.histories := hunchanged.trans (hflag hnone)
        right
        rw [hkept]
        exact ⟨rfl, rfl, rfl, rfl⟩
    · cases operatorAny with
      | true => exact .inl rfl
      | false => exact .inr ⟨rfl, hsame rfl⟩

variable (R chainId) in
theorem applyCommittedRotations_eq_none (storage : Storage) (n : ConsensusNode)
    (block : Block) : n.applyCommittedRotations R chainId storage block = none ↔
      n.blsKeyHistory = none ∧ ¬AcceptsNone R chainId n.validatorKeyHistory block := by
  unfold applyCommittedRotations
  simp only [Option.bind_eq_bind]
  rcases foldlM_rotations R chainId n.histories block with
    ⟨hb, ha, hnone⟩ | ⟨ha, applied, hfold, -⟩
  · rw [hnone]
    exact iff_of_true rfl ⟨hb, ha⟩
  · rw [hfold]
    refine iff_of_false (by simp) fun h => h.2 (ha h.1)

end

/-! ### Reconfigurations -/

/-- The id is that of a validator, or a key that belongs to one. -/
def ValidatorKeyHistory.Knows (h : ValidatorKeyHistory) (id : NodeId) : Prop :=
  h.byStableId.containsKey id = true ∨ h.pubkeyToStableId.containsKey id = true

instance (h : ValidatorKeyHistory) (id : NodeId) : Decidable (h.Knows id) :=
  inferInstanceAs (Decidable (_ ∨ _))

/-- The body of the loop of `seatMembers`. -/
theorem seatMembers_cons (key : ValidatorKeyHistory) (vEff : ℕ) (m : ValidatorId)
    (members : List ValidatorId) :
    seatMembers key vEff (m :: members) =
      seatMembers (if key.Knows m then key
        else ⟨key.byStableId.insert m [⟨vEff, m⟩], key.pubkeyToStableId.insert m m⟩) vEff
        members := by
  show seatMembers (if key.byStableId.containsKey m then key
    else keepOnError (key.addValidator m vEff) key) vEff members = _
  congr 1
  by_cases hid : key.byStableId.containsKey m = true
  · have hknows : key.Knows m := .inl hid
    rw [if_pos hid, if_pos hknows]
  · rw [if_neg hid]
    unfold ValidatorKeyHistory.addValidator
    cases hkey : key.pubkeyToStableId.get? m with
    | none =>
      have hindex : key.pubkeyToStableId.containsKey m = false :=
        (Table.containsKey_eq_false_iff _ _).mpr hkey
      have hknows : ¬key.Knows m := by
        rintro (h | h)
        · exact hid h
        · rw [hindex] at h
          cases h
      rw [if_neg hknows]
      rfl
    | some owner =>
      have hknows : key.Knows m :=
        .inr ((Table.containsKey_iff key.pubkeyToStableId m).mpr ⟨owner, hkey⟩)
      rw [if_pos hknows]
      rfl

theorem seatMembers_of_knows {key : ValidatorKeyHistory} {members : List ValidatorId}
    (h : ∀ m ∈ members, key.Knows m) (vEff : ℕ) : seatMembers key vEff members = key := by
  induction members with
  | nil => rfl
  | cons m members ih =>
    rw [seatMembers_cons, if_pos (h m (List.mem_cons_self ..))]
    exact ih fun m' hm' => h m' (List.mem_cons_of_mem _ hm')

theorem containsKey_seatMembers {key : ValidatorKeyHistory} {id : NodeId}
    (h : key.byStableId.containsKey id = true) (vEff : ℕ) (members : List ValidatorId) :
    (seatMembers key vEff members).byStableId.containsKey id = true := by
  induction members generalizing key with
  | nil => exact h
  | cons m members ih =>
    rw [seatMembers_cons]
    split_ifs
    · exact ih h
    · apply ih
      rw [Table.containsKey_insert, h, Bool.or_true]

/-- A newcomer gets an entry. -/
theorem containsKey_seatMembers_of_mem {key : ValidatorKeyHistory} {m : ValidatorId}
    {members : List ValidatorId} (hm : m ∈ members) (hk : ¬key.Knows m) (vEff : ℕ) :
    (seatMembers key vEff members).byStableId.containsKey m = true := by
  induction members generalizing key with
  | nil => exact absurd hm List.not_mem_nil
  | cons x members ih =>
    rw [seatMembers_cons]
    by_cases hx : m = x
    · obtain rfl := hx
      rw [if_neg hk]
      apply containsKey_seatMembers
      rw [Table.containsKey_insert]
      simp
    · have hmem : m ∈ members := (List.mem_cons.mp hm).resolve_left hx
      split_ifs
      · exact ih hmem hk
      · apply ih hmem
        unfold ValidatorKeyHistory.Knows at hk ⊢
        rw [Table.containsKey_insert, Table.containsKey_insert]
        simpa [hx] using hk

/-- Keys for ids that have none so far, from one view on. -/
def registerAll (t : Table NodeId (List KeyEntry)) (vEff : ℕ) (seats : List (NodeId × ℕ)) :
    Table NodeId (List KeyEntry) :=
  seats.foldl (fun t s => register t s.1 vEff s.2) t

theorem registerAll_of_contains {t : Table NodeId (List KeyEntry)} {seats : List (NodeId × ℕ)}
    (h : ∀ s ∈ seats, t.containsKey s.1 = true) (vEff : ℕ) : registerAll t vEff seats = t := by
  unfold registerAll
  induction seats with
  | nil => rfl
  | cons s seats ih =>
    rw [List.foldl_cons, register, if_pos (h s (List.mem_cons_self ..))]
    exact ih fun s' hs' => h s' (List.mem_cons_of_mem _ hs')

theorem containsKey_registerAll {t : Table NodeId (List KeyEntry)} {id : NodeId} {vEff : ℕ}
    {seats : List (NodeId × ℕ)} (h : t.containsKey id = true ∨ ∃ s ∈ seats, s.1 = id) :
    (registerAll t vEff seats).containsKey id = true := by
  unfold registerAll
  induction seats generalizing t with
  | nil => simpa using h
  | cons s seats ih =>
    rw [List.foldl_cons]
    apply ih
    unfold register
    rcases h with h | ⟨s', hs', rfl⟩
    · left
      split_ifs
      · exact h
      · rw [Table.containsKey_insert, h, Bool.or_true]
    · rcases List.mem_cons.mp hs' with rfl | hs'
      · left
        split_ifs with hc
        · exact hc
        · rw [Table.containsKey_insert]
          simp
      · exact .inr ⟨s', hs', rfl⟩

/-- Where registering adds no id, all had keys. -/
theorem contains_of_registerAll {t : Table NodeId (List KeyEntry)} {vEff : ℕ}
    {seats : List (NodeId × ℕ)}
    (h : (registerAll t vEff seats).containsKey = t.containsKey) :
    ∀ s ∈ seats, t.containsKey s.1 = true := by
  intro s hs
  rw [← h]
  exact containsKey_registerAll (.inr ⟨s, hs, rfl⟩)

def operatorSeats (cmd : ReconfigCommand) (newSet : ValidatorSet) : List (NodeId × ℕ) :=
  cmd.adds.filterMap fun entry =>
    entry.operatorPubkey.bind fun key =>
      if newSet.contains entry.nodeId then some (entry.nodeId, key) else none

def blsSeats (cmd : ReconfigCommand) (newSet : ValidatorSet) : List (NodeId × ℕ) :=
  cmd.adds.filterMap fun entry =>
    entry.blsPop.bind fun pop =>
      if newSet.contains entry.nodeId then some (entry.nodeId, pop.pubkey) else none

theorem registerOperators_eq (h : OperatorKeyHistory) (cmd : ReconfigCommand)
    (newSet : ValidatorSet) : registerOperators h cmd newSet =
      ⟨registerAll h.byStableId cmd.vEff (operatorSeats cmd newSet)⟩ := by
  unfold registerOperators registerAll operatorSeats
  congr 1
  rw [List.foldl_filterMap]
  congr 1
  funext t entry
  cases entry.operatorPubkey with
  | none => rfl
  | some key =>
    simp only [Option.bind_some]
    split_ifs <;> rfl

theorem registerBlsKeys_eq (h : BlsKeyHistory) (cmd : ReconfigCommand) (newSet : ValidatorSet) :
    registerBlsKeys h cmd newSet =
      ⟨registerAll h.byStableId cmd.vEff (blsSeats cmd newSet)⟩ := by
  unfold registerBlsKeys registerAll blsSeats
  congr 1
  rw [List.foldl_filterMap]
  congr 1
  funext t entry
  cases entry.blsPop with
  | none => rfl
  | some pop =>
    simp only [Option.bind_some]
    split_ifs <;> rfl

namespace Histories

/-- The histories with a change of the set and what comes with it. -/
def reconfigured (h : Histories) (cmd : ReconfigCommand) (newSet : ValidatorSet) : Histories where
  set := h.set.extend cmd.vEff newSet
  key := seatMembers h.key cmd.vEff newSet.members
  bls := h.bls.map fun bls => registerBlsKeys bls cmd newSet
  operator := h.operator.map fun op => registerOperators op cmd newSet

end Histories

section
variable {R : HistoryPrimitives} {minVEffDelay : ℕ} {chainId : ChainId}

/-- The replay applies the first command of the block that asks for a change, as the node
does. -/
theorem applyReconfigCommandsToSetHistory_eq (block : Block) (h : Histories) :
    applyReconfigCommandsToSetHistory R minVEffDelay chainId block h =
      match blockChange R.toReconfigPrimitives minVEffDelay chainId h.set block with
      | none => h
      | some (cmd, newSet) => h.reconfigured cmd newSet := by
  have hskip : ∀ {h : Histories}, block.header.view < h.set.last.vEff →
      ∀ commands : List Bytes, commands.foldl
        (applyReconfigCommandToSetHistory R minVEffDelay chainId block.header.view) h = h := by
    intro h hlt commands
    induction commands with
    | nil => rfl
    | cons bytes commands ih =>
      rw [List.foldl_cons, applyReconfigCommandToSetHistory, reconfigChange_eq_none hlt]
      exact ih
  unfold applyReconfigCommandsToSetHistory blockChange
  induction block.commands with
  | nil => rfl
  | cons bytes commands ih =>
    rw [List.foldl_cons, applyReconfigCommandToSetHistory]
    cases hc : reconfigChange R.toReconfigPrimitives minVEffDelay chainId h.set block.header.view
      bytes with
    | none =>
      rw [List.findSome?_cons_of_isNone (by simp [hc])]
      exact ih
    | some change =>
      obtain ⟨cmd, newSet⟩ := change
      obtain ⟨set, hi, -⟩ :=
        ValidatorSetHistory.insertBoundary_of_lt (last_lt_of_reconfigChange hc) newSet
      have hset : set = h.set.extend cmd.vEff newSet :=
        (ValidatorSetHistory.extend_of_insertBoundary hi).symm
      have hdelay := (reconfigChange_eq_some hc).1
      have hfloor : delayFloor = 4 := rfl
      have hlast : set.last.vEff = cmd.vEff := by
        rw [ValidatorSetHistory.last_of_insertBoundary hi]
      rw [List.findSome?_cons_of_isSome (by simp [hc]), hc]
      simp only [hi]
      rw [hskip (by simp only; omega), hset]
      rfl

/-- The node extends its set history by the same change, seats nobody, and registers keys when
the core takes the boundary too. -/
theorem histories_applyReconfig {n : ConsensusNode} {cmd : ReconfigCommand}
    (h : n.validatorHistory.last.vEff < cmd.vEff) (newSet : ValidatorSet) :
    (n.applyReconfig cmd newSet).1.histories =
      { n.histories.reconfigured cmd newSet with
        key := n.validatorKeyHistory
        bls := if n.core.state.validatorHistory.last.vEff < cmd.vEff then
          (n.histories.reconfigured cmd newSet).bls else n.blsKeyHistory
        operator := if n.core.state.validatorHistory.last.vEff < cmd.vEff then
          (n.histories.reconfigured cmd newSet).operator else some n.operatorKeyHistory } := by
  obtain ⟨history, hi, -⟩ := ValidatorSetHistory.insertBoundary_of_lt h newSet
  have hset : history = n.validatorHistory.extend cmd.vEff newSet :=
    (ValidatorSetHistory.extend_of_insertBoundary hi).symm
  unfold applyReconfig HotStuffCore.insertValidatorBoundary
  rw [hi]
  by_cases hl : n.core.state.validatorHistory.last.vEff < cmd.vEff
  · obtain ⟨coreHistory, hc, -⟩ := ValidatorSetHistory.insertBoundary_of_lt hl newSet
    rw [hc, if_pos hl, if_pos hl, hset]
    rfl
  · have hc : n.core.state.validatorHistory.insertBoundary cmd.vEff newSet =
        .error n.core.state.validatorHistory.last.vEff := by
      unfold ValidatorSetHistory.insertBoundary
      rw [dif_pos (by omega)]
    rw [hc, if_neg hl, if_neg hl, hset]
    rfl

/-- The change seats no newcomer, and the core's history takes it too, or else everyone it brings
a key for has one. -/
structure ConsensusNode.Follows (n : ConsensusNode) (cmd : ReconfigCommand)
    (newSet : ValidatorSet) : Prop where
  seats : ∀ m ∈ newSet.members, n.validatorKeyHistory.Knows m
  registers : n.core.state.validatorHistory.last.vEff < cmd.vEff ∨
    (∀ s ∈ operatorSeats cmd newSet, n.operatorKeyHistory.byStableId.containsKey s.1 = true) ∧
      ∀ bls ∈ n.blsKeyHistory, ∀ s ∈ blsSeats cmd newSet, bls.byStableId.containsKey s.1 = true

/-- It is enough that the ids with entries agree. -/
theorem follows_of_ids {n : ConsensusNode} {cmd : ReconfigCommand} {newSet : ValidatorSet}
    (h : n.validatorHistory.last.vEff < cmd.vEff)
    (hids : (n.applyReconfig cmd newSet).1.histories.ids =
      (n.histories.reconfigured cmd newSet).ids) : n.Follows cmd newSet := by
  rw [histories_applyReconfig h newSet] at hids
  obtain ⟨hkey, hrest⟩ := Prod.mk.inj hids
  obtain ⟨hbls, hop⟩ := Prod.mk.inj hrest
  constructor
  · intro m hm
    by_contra hk
    have hnew := containsKey_seatMembers_of_mem hm hk cmd.vEff
    have hsame := congrFun hkey m
    exact hk (.inl (hsame.trans hnew))
  · by_cases hl : n.core.state.validatorHistory.last.vEff < cmd.vEff
    · exact .inl hl
    · right
      simp only [if_neg hl] at hbls hop
      constructor
      · have hsame : n.operatorKeyHistory.byStableId.containsKey =
            (registerOperators n.operatorKeyHistory cmd newSet).byStableId.containsKey :=
          Option.some.inj hop
        rw [registerOperators_eq] at hsame
        exact contains_of_registerAll hsame.symm
      · have hsame : n.blsKeyHistory.map (fun b => b.byStableId.containsKey) =
            (n.blsKeyHistory.map fun b => registerBlsKeys b cmd newSet).map
              fun b => b.byStableId.containsKey := hbls
        intro bls hb
        rw [Option.mem_def.mp hb] at hsame
        have hcontains := Option.some.inj hsame
        simp only [registerBlsKeys_eq] at hcontains
        exact contains_of_registerAll hcontains.symm

theorem histories_of_follows {n : ConsensusNode} {cmd : ReconfigCommand} {newSet : ValidatorSet}
    (h : n.validatorHistory.last.vEff < cmd.vEff) (hf : n.Follows cmd newSet) :
    (n.applyReconfig cmd newSet).1.histories = n.histories.reconfigured cmd newSet := by
  rw [histories_applyReconfig h newSet]
  have hkey : n.validatorKeyHistory = (n.histories.reconfigured cmd newSet).key :=
    (seatMembers_of_knows hf.seats cmd.vEff).symm
  by_cases hl : n.core.state.validatorHistory.last.vEff < cmd.vEff
  · simp only [if_pos hl, hkey]
  · obtain ⟨hop, hbls⟩ := hf.registers.resolve_left hl
    have hop' : some n.operatorKeyHistory = (n.histories.reconfigured cmd newSet).operator := by
      show _ = some (registerOperators n.operatorKeyHistory cmd newSet)
      rw [registerOperators_eq, registerAll_of_contains hop]
    have hbls' : n.blsKeyHistory = (n.histories.reconfigured cmd newSet).bls := by
      show _ = n.blsKeyHistory.map fun bls => registerBlsKeys bls cmd newSet
      cases hb : n.blsKeyHistory with
      | none => rfl
      | some bls =>
        rw [Option.map_some, registerBlsKeys_eq, registerAll_of_contains (hbls bls hb)]
    simp only [if_neg hl, hkey, hop', hbls']

/-- A change that the block makes is followed, and without a BLS history no rotation of the block
is accepted. -/
structure ReplaysAlike (R : HistoryPrimitives) (minVEffDelay : ℕ) (chainId : ChainId)
    (n : ConsensusNode) (block : Block) : Prop where
  follows : ∀ change ∈ blockChange R.toReconfigPrimitives minVEffDelay chainId n.validatorHistory
    block, n.Follows change.1 change.2
  rotates : n.blsKeyHistory = none → AcceptsNone R chainId n.validatorKeyHistory block

variable (R chainId) in
theorem histories_applyCommittedRotations (storage : Storage) (n : ConsensusNode)
    (block : Block) : (n.applyCommittedRotations R chainId storage block).map
        (fun r => r.2.histories) =
      if n.blsKeyHistory = none ∧ ¬AcceptsNone R chainId n.validatorKeyHistory block then none
      else some (applyRotationCommandsToHistories R chainId block n.histories) := by
  have hnone := applyCommittedRotations_eq_none R chainId storage n block
  cases hr : n.applyCommittedRotations R chainId storage block with
  | none =>
    rw [if_pos (hnone.mp hr)]
    rfl
  | some r =>
    obtain ⟨storage', n'⟩ := r
    have hsome : ¬(n.blsKeyHistory = none ∧
        ¬AcceptsNone R chainId n.validatorKeyHistory block) := by
      rw [← hnone, hr]
      simp
    rw [if_neg hsome, Option.map_some, (committedRotations_of_some hr).histories]

variable (R minVEffDelay chainId) in
/-- A change touches neither the validators' keys nor whether there is a BLS history. -/
theorem applyReconfigs_keeps (n : ConsensusNode) (block : Block) :
    (n.applyReconfigs R.toReconfigPrimitives minVEffDelay chainId block).1.validatorKeyHistory =
        n.validatorKeyHistory ∧
      ((n.applyReconfigs R.toReconfigPrimitives minVEffDelay chainId block).1.blsKeyHistory =
        none ↔ n.blsKeyHistory = none) := by
  rw [applyReconfigs_eq]
  cases hc : blockChange R.toReconfigPrimitives minVEffDelay chainId n.validatorHistory block with
  | none => exact ⟨rfl, Iff.rfl⟩
  | some change =>
    have hh := histories_applyReconfig (last_lt_of_blockChange hc) change.2
    constructor
    · exact congrArg Histories.key hh
    · have hbls : (n.applyReconfig change.1 change.2).1.blsKeyHistory = _ :=
        congrArg Histories.bls hh
      rw [hbls]
      have hlive : (n.histories.reconfigured change.1 change.2).bls =
        n.blsKeyHistory.map fun bls => registerBlsKeys bls change.1 change.2 := rfl
      simp only [hlive]
      split_ifs <;> simp

/-- A commit leaves the node with the histories that the replay of the block computes exactly
when the block meets the condition. -/
theorem replays_iff (storage : Storage) (n : ConsensusNode) (block : Block) :
    (n.applyCommittedHistories R chainId minVEffDelay storage block).map
        (fun r => r.2.histories) =
        some (replayBlock R minVEffDelay chainId n.histories block) ↔
      ReplaysAlike R minVEffDelay chainId n block := by
  obtain ⟨hkey, hbls⟩ := applyReconfigs_keeps R minVEffDelay chainId n block
  have hlive : (n.applyCommittedHistories R chainId minVEffDelay storage block).map
        (fun r => r.2.histories) =
      if n.blsKeyHistory = none ∧ ¬AcceptsNone R chainId n.validatorKeyHistory block then none
      else some (applyRotationCommandsToHistories R chainId block
        (n.applyReconfigs R.toReconfigPrimitives minVEffDelay chainId block).1.histories) := by
    have h := histories_applyCommittedRotations R chainId
      (n.applyCommittedReconfigs R.toReconfigPrimitives minVEffDelay chainId storage block).1
      (n.applyReconfigs R.toReconfigPrimitives minVEffDelay chainId block).1 block
    simp only [hkey, hbls] at h
    exact h
  rw [hlive]
  unfold replayBlock
  rw [applyReconfigCommandsToSetHistory_eq]
  have hset : n.histories.set = n.validatorHistory := rfl
  rw [hset, applyReconfigs_eq]
  by_cases hnone : n.blsKeyHistory = none ∧ ¬AcceptsNone R chainId n.validatorKeyHistory block
  · rw [if_pos hnone]
    exact iff_of_false (by simp) fun h => hnone.2 (h.rotates hnone.1)
  · rw [if_neg hnone, Option.some_inj]
    have hrotates : n.blsKeyHistory = none → AcceptsNone R chainId n.validatorKeyHistory block :=
      fun hb => by_contra fun ha => hnone ⟨hb, ha⟩
    cases hc : blockChange R.toReconfigPrimitives minVEffDelay chainId n.validatorHistory
      block with
    | none =>
      refine iff_of_true rfl ⟨?_, hrotates⟩
      simp [hc]
    | some change =>
      have hlast := last_lt_of_blockChange hc
      constructor
      · intro heq
        refine ⟨?_, hrotates⟩
        intro change' hmem
        obtain rfl : change = change' := Option.some.inj (hc.symm.trans hmem)
        have hids := congrArg Histories.ids heq
        rw [ids_applyRotationCommandsToHistories, ids_applyRotationCommandsToHistories] at hids
        exact follows_of_ids hlast hids
      · intro h
        exact congrArg (applyRotationCommandsToHistories R chainId block)
          (histories_of_follows hlast (h.follows change hc))

end

namespace Sample

/-- Reconfigurations that add, remove or reweigh one validator, rotations of both keys of a
validator and cancels of them, each in a few bytes; every signature passes. -/
def allChanges : HistoryPrimitives where
  decodeBody := fun body =>
    match body with
    | [1, id, bls, weight, vEff] =>
      some ⟨[⟨id.toNat, [], some ⟨bls.toNat, 0⟩, weight.toUInt64, none, none, []⟩], [], [],
        vEff.toNat⟩
    | [2, id, vEff] => some ⟨[], [id.toNat], [], vEff.toNat⟩
    | [3, id, weight, vEff] => some ⟨[], [], [⟨id.toNat, weight.toUInt64⟩], vEff.toNat⟩
    | _ => none
  popVerifies := fun _ _ => true
  consentVerifies := fun _ _ _ => true
  decodeRotation := fun body =>
    match body with
    | [validator, newKey, newBls, vEff] =>
      some ⟨⟨validator.toNat, newKey.toNat, vEff.toNat, some newBls.toNat,
        some ⟨newBls.toNat, 0⟩⟩, 0, 0⟩
    | _ => none
  decodeCancel := fun body =>
    match body with
    | [validator, vEff] => some ⟨⟨validator.toNat, vEff.toNat⟩, 0, 0⟩
    | _ => none
  decodeOperatorRotation := fun _ => none
  decodeOperatorKeyRotation := fun _ => none
  rotationVerifies := fun _ _ _ _ => true
  cancelVerifies := fun _ _ _ _ => true
  operatorKeyRotationVerifies := fun _ _ _ _ => true
  historyHash := fun set key bls op => Encodable.encode
    ((set.boundaries.map fun b => (b.vEff, b.members, b.weights.map UInt64.toNat)),
      [some key, bls, some op].map fun p => (p.map PersistedKeyHistory.validators).map
        fun vs => vs.map fun v => (v.stableId, v.entries.map fun e => (e.vEff, e.key)))

/-- Validator 5 joins from view 14 on, with the BLS key 15. -/
def add₅ : Bytes := reconfigTag ++ [1, 5, 15, 1, 14]

def admitting : Block := blockOn root 10 0 [add₅]

/-- The block that admits validator 5 leaves the node without a key for it. -/
theorem newcomer_not_replayed : ∃ r ∈ fullNodeAfter [.boot],
    (∀ r' ∈ r.node.applyCommittedHistories allChanges (config.chainId timed)
        config.minVEffDelay r.storage admitting,
      (r'.2.validatorHistory.setAt 14).contains 5 = true ∧
      r'.2.validatorKeyHistory.validatorFor 5 = none) ∧
    (r.node.applyCommittedHistories allChanges (config.chainId timed) config.minVEffDelay
        r.storage admitting).map (fun r' => r'.2.histories) ≠
      some (replayBlock allChanges config.minVEffDelay (config.chainId timed) r.node.histories
        admitting) := by
  obtain ⟨r, hr, hlive, hsome, hpure⟩ : ∃ r ∈ fullNodeAfter [.boot],
      (∀ r' ∈ r.node.applyCommittedHistories allChanges (config.chainId timed)
          config.minVEffDelay r.storage admitting,
        (r'.2.validatorHistory.setAt 14).contains 5 = true ∧
        r'.2.validatorKeyHistory.validatorFor 5 = none) ∧
      (r.node.applyCommittedHistories allChanges (config.chainId timed) config.minVEffDelay
        r.storage admitting).isSome ∧
      (replayBlock allChanges config.minVEffDelay (config.chainId timed) r.node.histories
        admitting).key.validatorFor 5 = some 5 := by decide +kernel
  refine ⟨r, hr, hlive, ?_⟩
  obtain ⟨r', hr'⟩ := Option.isSome_iff_exists.mp hsome
  have hunknown := (hlive r' hr').2
  rw [hr']
  intro heq
  have hkey := congrArg Histories.key (Option.some.inj heq)
  have hlivekey : r'.2.histories.key = r'.2.validatorKeyHistory := rfl
  rw [← hkey, hlivekey, hunknown] at hpure
  cases hpure

end Sample

end Boule
