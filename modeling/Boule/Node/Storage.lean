import Boule.Dispatch.Wire

/-! What a node keeps on disk, and the replica state that `recover_state` rebuilds from it. -/
namespace Boule

structure LastCommitted where
  height : ℕ
  view : ℕ
  lastCommittedHash : BlockHash
  deriving DecidableEq

/-- The keys under `consensus/`, decoded. Evidence, parameters, endpoints, timeout votes and
snapshots have keys of their own and are left out. -/
structure Storage where
  lastVotedView : Option ℕ
  locked : Option Locked
  highQc : Option QuorumCertificate
  proposedInView : Option ℕ
  blocks : Table BlockHash Block
  heights : Table ℕ BlockHash
  lastCommitted : Option LastCommitted
  validatorHistory : Option PersistedValidatorHistory
  validatorKeyHistory : Option PersistedKeyHistory
  blsKeyHistory : Option PersistedKeyHistory
  operatorKeyHistory : Option PersistedKeyHistory
  deriving DecidableEq

def StateUpdate.blockHash? : StateUpdate → Option BlockHash
  | .highQc qc => some qc.blockHash
  | .locked l => some l.blockHash
  | .votedInView _ => none
  | .proposedInView _ => none

def StateUpdate.votedView? : StateUpdate → Option ℕ
  | .votedInView view => some view
  | _ => none

namespace Storage

def empty : Storage where
  lastVotedView := none
  locked := none
  highQc := none
  proposedInView := none
  blocks := ∅
  heights := ∅
  lastCommitted := none
  validatorHistory := none
  validatorKeyHistory := none
  blsKeyHistory := none
  operatorKeyHistory := none

def put (s : Storage) : StateUpdate → Storage
  | .votedInView view => { s with lastVotedView := some view }
  | .locked l => { s with locked := some l }
  | .highQc qc => { s with highQc := some qc }
  | .proposedInView view => { s with proposedInView := some view }

def putBlock (s : Storage) (hash : BlockHash) (block : Block) : Storage :=
  { s with blocks := s.blocks.insert hash block }

/-- The pending block that an update refers to is written with it. -/
def putReferenced (pending : Table BlockHash Block) (s : Storage) (u : StateUpdate) : Storage :=
  match u.blockHash? with
  | none => s
  | some hash =>
    match pending.get? hash with
    | none => s
    | some block => s.putBlock hash block

/-- One batch: the updates in order, then the blocks. -/
def persistUpdates (s : Storage) (pending : Table BlockHash Block) (updates : List StateUpdate) :
    Storage :=
  updates.foldl (putReferenced pending) (updates.foldl put s)

/-- The last voted view as `recover_state` reads it. -/
def durableVotedView (s : Storage) : ℕ := s.lastVotedView.getD 0

end Storage

def recoverParentHops : ℕ := 2

/-- At most `n` blocks, from `cursor` towards its ancestors. -/
def rehydrateAncestors (P : Primitives) (storage : Storage) :
    ℕ → HotStuffState → BlockHash → HotStuffState
  | 0, state, _ => state
  | n + 1, state, cursor =>
    match state.pendingBlocks.get? cursor with
    | some b =>
      if b.header.parentHash = 0 then state
      else rehydrateAncestors P storage n state b.header.parentHash
    | none =>
      match storage.blocks.get? cursor with
      | none => state
      | some block =>
        let state := state.insertPending P block
        if block.header.parentHash = 0 then state
        else rehydrateAncestors P storage n state block.header.parentHash

def recoverState (P : Primitives) (storage : Storage) (validatorSet : ValidatorSet)
    (genesis : Block) : HotStuffState :=
  let fresh := HotStuffState.new P validatorSet genesis
  let state := { fresh with
    highQc := some (storage.highQc.getD (genesisQc P genesis validatorSet))
    lastVotedView := storage.durableVotedView
    locked := storage.locked }
  let state := match state.highQc with
    | none => state
    | some qc => rehydrateAncestors P storage (recoverParentHops + 1) state qc.blockHash
  match state.locked with
  | none => state
  | some locked =>
    rehydrateAncestors P storage (recoverParentHops + 1) state locked.blockHash

section
variable {P : Primitives} {storage : Storage}

/-- Rehydrating only inserts stored blocks, each under its own hash. -/
theorem rehydrateAncestors_invariant {I : HotStuffState → Prop}
    (hins : ∀ s b h, storage.blocks.get? h = some b → I s → I (s.insertPending P b))
    (n : ℕ) {state : HotStuffState} (cursor : BlockHash) (hs : I state) :
    I (rehydrateAncestors P storage n state cursor) := by
  induction n generalizing state cursor with
  | zero => exact hs
  | succ n ih =>
    rw [rehydrateAncestors]
    cases state.pendingBlocks.get? cursor with
    | some b =>
      simp only
      split_ifs
      · exact hs
      · exact ih _ hs
    | none =>
      cases hb : storage.blocks.get? cursor with
      | none => exact hs
      | some b =>
        have hi := hins state b cursor hb hs
        simp only
        split_ifs
        · exact hi
        · exact ih _ hi

/-- What every insertion of a stored block preserves holds of the recovered state. -/
theorem recoverState_invariant {vs : ValidatorSet} {genesis : Block} {I : HotStuffState → Prop}
    (hins : ∀ s b h, storage.blocks.get? h = some b → I s → I (s.insertPending P b))
    (hfresh : I { HotStuffState.new P vs genesis with
      highQc := some (storage.highQc.getD (genesisQc P genesis vs))
      lastVotedView := storage.durableVotedView
      locked := storage.locked }) : I (recoverState P storage vs genesis) := by
  have hqc := rehydrateAncestors_invariant hins (recoverParentHops + 1)
    (storage.highQc.getD (genesisQc P genesis vs)).blockHash hfresh
  unfold recoverState
  simp only
  split
  · exact hqc
  · exact rehydrateAncestors_invariant hins _ _ hqc

theorem recoverState_lastVotedView (vs : ValidatorSet) (genesis : Block) :
    (recoverState P storage vs genesis).lastVotedView = storage.durableVotedView := by
  refine recoverState_invariant (I := fun s => s.lastVotedView = storage.durableVotedView) ?_ rfl
  intro s b h hb hs
  rw [HotStuffState.insertPending_lastVotedView]
  exact hs

end

namespace Storage

theorem putReferenced_eq (pending : Table BlockHash Block) (s : Storage) (u : StateUpdate) :
    s.putReferenced pending u = s ∨ ∃ h b, pending.get? h = some b ∧
      s.putReferenced pending u = s.putBlock h b := by
  unfold putReferenced
  cases u.blockHash? with
  | none => exact .inl rfl
  | some h =>
    cases hb : pending.get? h with
    | none => exact .inl (by simp only [hb])
    | some b => exact .inr ⟨h, b, hb, by simp only [hb]⟩

theorem blocks_foldl_put (s : Storage) (updates : List StateUpdate) :
    (updates.foldl put s).blocks = s.blocks := by
  induction updates generalizing s with
  | nil => rfl
  | cons u us ih =>
    rw [List.foldl_cons, ih]
    cases u <;> rfl

/-- The updates leave the blocks alone, and what is written besides them is pending. -/
theorem get?_persistUpdates {s : Storage} {pending : Table BlockHash Block}
    {updates : List StateUpdate} {h : BlockHash} {b : Block}
    (hb : (s.persistUpdates pending updates).blocks.get? h = some b) :
    pending.get? h = some b ∨ s.blocks.get? h = some b := by
  rw [← blocks_foldl_put s updates]
  unfold persistUpdates at hb
  generalize updates.foldl put s = t at hb
  induction updates generalizing t with
  | nil => exact .inr hb
  | cons u us ih =>
    rw [List.foldl_cons] at hb
    rcases ih _ hb with hp | ht
    · exact .inl hp
    · rcases putReferenced_eq pending t u with he | ⟨h', b', hb', he⟩
      · exact .inr (he ▸ ht)
      · rw [he, putBlock, Table.get?_insert] at ht
        split_ifs at ht with hh
        · exact .inl (by rw [hh, hb', ht])
        · exact .inr ht

end Storage

end Boule
