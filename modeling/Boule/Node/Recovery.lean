import Boule.Node.Blocks
import Boule.Node.OneProposal

/-! What a node has promised by the messages that have left it, and what it recovers after a
crash at any point. -/
namespace Boule
open HotStuffCore (Emits SameRecords)
open HotStuffState WriteAhead

/-! ### The conditions on what a node does -/

/-- What is written or promised has no earlier update that is still to be written, the lock
does not move to a lower view, the marker does not fall, and a snapshot is not below what it
takes the place of. -/
def promiseGuard (P : Primitives) : Guard where
  push frames _ calls actions := Settled frames actions ∧ ∀ call ∈ calls, call.LockRises P
  build frames memory view block :=
    .proposed ∉ unwrittenKinds frames ∧ memory.proposedInView ≤ view ∧ block.header.view ≤ view
  adopt frames disk manifest :=
    (∀ kind ∈ unwrittenKinds frames, kind = .proposed) ∧ disk.votedView ≤ manifest.view ∧
      (∀ l ∈ disk.locked, l.view ≤ manifest.view ∧ l.height ≤ manifest.block.header.height) ∧
      disk.highQcView ≤ manifest.commitQc.view

section
variable {P : Primitives}

instance (frames : List Frame) (c : HotStuffCore) (calls : List AcceptCall)
    (actions : List Action) : Decidable ((promiseGuard P).push frames c calls actions) :=
  inferInstanceAs (Decidable (_ ∧ ∀ call ∈ calls, _))

instance (frames : List Frame) (memory : Records) (view : ℕ) (block : Block) :
    Decidable ((promiseGuard P).build frames memory view block) :=
  inferInstanceAs (Decidable (_ ∧ _ ∧ _))

instance (frames : List Frame) (disk : Records) (manifest : SnapshotManifest) :
    Decidable ((promiseGuard P).adopt frames disk manifest) :=
  inferInstanceAs (Decidable ((∀ kind ∈ unwrittenKinds frames, _) ∧ _ ∧
    (∀ l ∈ disk.locked, _) ∧ _))

namespace Register
variable {α : Type} [Preorder α] {r : Register α}

theorem raisedBy_of_settled {frames : List Frame} {records records' : Records}
    {held : Option Locked} {actions : List Action}
    (rises : Rises (r.read records) (r.read records') (r.entries held actions))
    (h : Settled frames actions) : r.RaisedBy frames records records' held actions := by
  refine ⟨rises, fun hne => ?_⟩
  obtain ⟨a, ha, hk⟩ := r.exists_relies_of_entries hne
  exact h a ha r.kind hk

/-- A built block only touches the marker. -/
theorem raisedBy_build {frames : List Frame} {memory : Records} {view : ℕ} {block : Block}
    {qc : QuorumCertificate} {held : Option Locked}
    (rises : Rises (r.read memory) (r.read { memory with proposedInView := view })
      (r.entries held [.persist (.proposedInView view), .broadcast (.proposal ⟨block, qc⟩)]))
    (h : .proposed ∉ unwrittenKinds frames) :
    r.RaisedBy frames memory { memory with proposedInView := view } held
      [.persist (.proposedInView view), .broadcast (.proposal ⟨block, qc⟩)] := by
  refine raisedBy_of_settled rises fun a ha k hk => ?_
  have hproposed : k = .proposed := by
    rcases List.mem_cons.mp ha with rfl | ha
    · exact List.mem_singleton.mp hk
    · obtain rfl := List.mem_singleton.mp ha
      exact List.mem_singleton.mp hk
  rwa [hproposed]

omit [Preorder α] in
theorem notMem_of_adopt {frames : List Frame} {disk : Records} {manifest : SnapshotManifest}
    (h : (promiseGuard P).adopt frames disk manifest) (hk : r.kind ≠ .proposed) :
    r.kind ∉ unwrittenKinds frames :=
  fun hm => hk (h.1 r.kind hm)

theorem obeys_voted : voted.Obeys P (promiseGuard P) where
  push := fun emits h => raisedBy_of_settled (rises_voted emits) h.1
  build := fun h => raisedBy_build (.nil _) h.1
  adopt := by
    intro frames disk m h
    refine .inr ⟨notMem_of_adopt h (by decide), h.2.1, fun memory => ⟨le_max_right _ _, ?_⟩⟩
    rcases le_total memory.votedView m.view with hle | hle
    · exact .inl (Nat.le_of_eq (max_eq_right hle))
    · exact .inr (Nat.le_of_eq (max_eq_left hle))

theorem obeys_lock : lock.Obeys P (promiseGuard P) where
  push := fun emits h => raisedBy_of_settled (rises_lock emits h.2) h.1
  build := fun h => raisedBy_build (.nil _) h.1
  adopt := by
    intro frames disk m h
    have hle : lockLevel disk.locked ≤ lockLevel (disk.adopt P m m.view).locked :=
      lockLevel_le_iff.mpr fun l hl => ⟨_, rfl, h.2.2.1 l hl⟩
    exact .inr ⟨notMem_of_adopt h (by decide), hle, fun memory => ⟨le_refl _, .inl (le_refl _)⟩⟩

theorem obeys_highQc : highQc.Obeys P (promiseGuard P) where
  push := fun emits h => raisedBy_of_settled (rises_highQc emits) h.1
  build := fun h => raisedBy_build (.nil _) h.1
  adopt := by
    intro frames disk m h
    exact .inr ⟨notMem_of_adopt h (by decide), h.2.2.2,
      fun memory => ⟨le_refl _, .inl (le_refl _)⟩⟩

theorem obeys_proposed : proposed.Obeys P (promiseGuard P) where
  push := fun emits h => raisedBy_of_settled (rises_proposed emits) h.1
  build := by
    intro frames memory view block qc held h
    obtain ⟨hsettled, hle, hview⟩ := h
    exact raisedBy_build ((Rises.write hle).append (.send hview)) hsettled
  adopt := fun _ => .inl fun _ _ => rfl

end Register

end

/-! ### The block of the stored lock -/

theorem foldl_lockAfter (updates : List StateUpdate) (held : Option Locked) :
    updates.foldl StateUpdate.lockAfter held =
      (updates.foldl StateUpdate.lockAfter none).or held := by
  induction updates generalizing held with
  | nil => rfl
  | cons u us ih =>
    rw [List.foldl_cons, List.foldl_cons, ih, ih (u.lockAfter none)]
    cases u with
    | locked l => cases us.foldl StateUpdate.lockAfter none <;> rfl
    | _ => cases us.foldl StateUpdate.lockAfter none <;> rfl

theorem mem_of_lockAfter {updates : List StateUpdate} {l : Locked}
    (h : updates.foldl StateUpdate.lockAfter none = some l) : .locked l ∈ updates := by
  induction updates with
  | nil => cases h
  | cons u us ih =>
    rw [List.foldl_cons, foldl_lockAfter] at h
    cases hus : us.foldl StateUpdate.lockAfter none with
    | some l' =>
      rw [hus] at h
      exact List.mem_cons_of_mem _ (ih (hus.trans h))
    | none =>
      rw [hus] at h
      cases u with
      | locked l' =>
        obtain rfl := Option.some.inj h
        exact List.mem_cons_self ..
      | _ => cases h

theorem Records.locked_foldl_put (r : Records) (updates : List StateUpdate) :
    (updates.foldl Records.put r).locked = updates.foldl StateUpdate.lockAfter r.locked := by
  induction updates generalizing r with
  | nil => rfl
  | cons u us ih =>
    rw [List.foldl_cons, List.foldl_cons, ih]
    cases u <;> rfl

namespace Storage

/-- Stored blocks are under their own hashes, and the block of the lock is among them. -/
structure HoldsLock (P : Primitives) (s : Storage) : Prop where
  keyed : ∀ h b, s.blocks.get? h = some b → b.hash P = h
  stored : ∀ l ∈ s.locked, s.blocks.containsKey l.blockHash = true

theorem locked_persistUpdates (s : Storage) (pending : Table BlockHash Block)
    (updates : List StateUpdate) : (s.persistUpdates pending updates).locked =
      updates.foldl StateUpdate.lockAfter s.locked :=
  (congrArg Records.locked (s.records_persistUpdates pending updates)).trans
    (s.records.locked_foldl_put updates)

/-- Stored blocks stay stored, and the pending blocks that the updates refer to join them. -/
theorem containsKey_persistUpdates {s : Storage} {pending : Table BlockHash Block}
    {updates : List StateUpdate} {h : BlockHash}
    (hc : s.blocks.containsKey h = true ∨
      pending.containsKey h = true ∧ ∃ u ∈ updates, u.blockHash? = some h) :
    (s.persistUpdates pending updates).blocks.containsKey h = true := by
  unfold persistUpdates
  rw [← blocks_foldl_put s updates] at hc
  generalize updates.foldl put s = t at hc
  induction updates generalizing t with
  | nil =>
    rcases hc with hc | ⟨-, u, hu, -⟩
    · exact hc
    · exact absurd hu List.not_mem_nil
  | cons u us ih =>
    rw [List.foldl_cons]
    apply ih
    have hkeep : t.blocks.containsKey h = true →
        (putReferenced pending t u).blocks.containsKey h = true := by
      intro ht
      rcases putReferenced_eq pending t u with he | ⟨h', b, -, he⟩
      · rwa [he]
      · obtain ⟨b', hb'⟩ := (Table.containsKey_iff _ _).mp ht
        rw [he, Table.containsKey_iff]
        show ∃ v, Table.get? (t.blocks.insert h' b) h = some v
        rw [Table.get?_insert]
        split_ifs
        · exact ⟨b, rfl⟩
        · exact ⟨b', hb'⟩
    rcases hc with hc | ⟨hp, v, hv, hh⟩
    · exact .inl (hkeep hc)
    · rcases List.mem_cons.mp hv with rfl | hv
      · obtain ⟨b, hb⟩ := (Table.containsKey_iff _ _).mp hp
        left
        have hput : putReferenced pending t v = t.putBlock h b := by
          simp only [putReferenced, hh, hb]
        rw [hput, Table.containsKey_iff]
        exact ⟨b, Table.get?_insert_self _ _ _⟩
      · exact .inr ⟨hp, v, hv, hh⟩

/-- A batch with a lock is written while the lock's block is pending or stored. -/
theorem HoldsLock.persistUpdates {P : Primitives} {s : Storage} (h : s.HoldsLock P)
    {pending : Table BlockHash Block} {updates : List StateUpdate}
    (hp : ∀ h b, pending.get? h = some b → b.hash P = h)
    (hl : ∀ l ∈ updates.foldl StateUpdate.lockAfter none,
      pending.containsKey l.blockHash = true ∨ s.blocks.containsKey l.blockHash = true) :
    (s.persistUpdates pending updates).HoldsLock P := by
  constructor
  · intro hash b hb
    rcases get?_persistUpdates hb with hb | hb
    · exact hp hash b hb
    · exact h.keyed hash b hb
  · intro l hlock
    rw [locked_persistUpdates, foldl_lockAfter] at hlock
    apply containsKey_persistUpdates
    cases hu : updates.foldl StateUpdate.lockAfter none with
    | none =>
      rw [hu] at hlock
      exact .inl (h.stored l hlock)
    | some l' =>
      rw [hu] at hlock
      obtain rfl := Option.some.inj hlock
      rcases hl l' hu with hpending | hstored
      · exact .inr ⟨hpending, _, mem_of_lockAfter hu, rfl⟩
      · exact .inl hstored

end Storage

theorem Table.get?_foldl_erase {K V E : Type} [DecidableEq K] (t : Table K V) (es : List E)
    (key : E → K) (k : K) (hk : ∀ e ∈ es, key e ≠ k) :
    Table.get? (es.foldl (fun t e => t.erase (key e)) t) k = t.get? k := by
  induction es generalizing t with
  | nil => rfl
  | cons e es ih =>
    rw [List.foldl_cons, ih _ fun e' he' => hk e' (List.mem_cons_of_mem _ he'),
      Table.get?_erase, if_neg (hk e (List.mem_cons_self ..)).symm]

namespace ConsensusNode
variable {P : Primitives} {R : ReconfigPrimitives} {cfg : NodeConfig}

/-- A commit stores its block, prunes, and leaves the lock. -/
theorem storage_applyCommit {storage storage' : Storage} {n n' : ConsensusNode} {block : Block}
    (h : n.applyCommit P R cfg storage block = some (storage', n')) :
    storage'.locked = storage.locked ∧
      storage'.blocks = (pruneTargetsForCommit storage
        (max n.lastCommittedHeight block.header.height) cfg.blockRetentionWindow).foldl
          (fun t e => t.erase e.2) (storage.blocks.insert (block.hash P) block) := by
  obtain ⟨rfl, -⟩ := Prod.mk.inj (applyCommit_eq_some h)
  refine ⟨rfl, ?_⟩
  rw [← n.advanced_lastCommittedHeight block.header.height block.header.view]
  rfl

theorem holdsLock_applyCommit {storage storage' : Storage} {n n' : ConsensusNode} {block : Block}
    (hs : storage.HoldsLock P) (h : n.applyCommit P R cfg storage block = some (storage', n'))
    (hl : ∀ l ∈ storage.locked, ∀ e ∈ pruneTargetsForCommit storage
      (max n.lastCommittedHeight block.header.height) cfg.blockRetentionWindow,
        e.2 ≠ l.blockHash) : storage'.HoldsLock P := by
  obtain ⟨hlocked, hblocks⟩ := storage_applyCommit h
  constructor
  · intro hash b hb
    rw [hblocks] at hb
    have hb' := Table.get?_of_foldl_erase hb
    rw [Table.get?_insert] at hb'
    split_ifs at hb' with he
    · obtain rfl := Option.some.inj hb'
      exact he.symm
    · exact hs.keyed hash b hb'
  · intro l hlock
    rw [hlocked] at hlock
    obtain ⟨b, hb⟩ := (Table.containsKey_iff _ _).mp (hs.stored l hlock)
    rw [hblocks, Table.containsKey_iff, Table.get?_foldl_erase _ _ _ _ (hl l hlock),
      Table.get?_insert]
    split_ifs
    · exact ⟨block, rfl⟩
    · exact ⟨b, hb⟩

theorem storage_restore (P : Primitives) (storage : Storage) (n : ConsensusNode)
    (m : SnapshotManifest) :
    (n.restore P storage m).1.locked = some ⟨m.view, m.block.header.height, m.block.hash P⟩ ∧
      (n.restore P storage m).1.blocks = storage.blocks.insert m.blockHash m.block := by
  constructor
  · exact congrArg Records.locked (n.restore_records P storage m).1
  · rw [(n.restore_installs P storage m).1]
    exact (installHistories_frame _ _ m).2.2

theorem holdsLock_restore {storage : Storage} (hs : storage.HoldsLock P) (n : ConsensusNode)
    {m : SnapshotManifest} (hm : m.blockHash = m.block.hash P) :
    (n.restore P storage m).1.HoldsLock P := by
  obtain ⟨hlocked, hblocks⟩ := n.storage_restore P storage m
  constructor
  · intro hash b hb
    rw [hblocks, Table.get?_insert] at hb
    split_ifs at hb with he
    · obtain rfl := Option.some.inj hb
      rw [he, hm]
    · exact hs.keyed hash b hb
  · intro l hlock
    rw [hlocked] at hlock
    obtain rfl := Option.some.inj hlock
    rw [hblocks, Table.containsKey_iff]
    exact ⟨m.block, hm ▸ Table.get?_insert_self _ _ _⟩

end ConsensusNode

/-! ### Runs that keep the lock's block -/

/-- A lock is written while its block is pending or stored, and the block is not pruned; a
snapshot's block is under its hash. -/
def KeepsLockedAt (P : Primitives) (cfg : NodeConfig) (storage : Storage) (n : ConsensusNode) :
    NodeInput → List Frame → Prop
  | .restore _ true manifest, _ => manifest.blockHash = manifest.block.hash P
  | .interpret _, ⟨_, .persist _ :: _⟩ :: _ => True
  | .interpret _, ⟨[], .commit block :: _⟩ :: _ =>
    ∀ l ∈ storage.locked, ∀ e ∈ ConsensusNode.pruneTargetsForCommit storage
      (max n.lastCommittedHeight block.header.height) cfg.blockRetentionWindow,
        e.2 ≠ l.blockHash
  | .interpret _, ⟨buf, _⟩ :: _ =>
    ∀ l ∈ buf.foldl StateUpdate.lockAfter none,
      n.core.state.pendingBlocks.containsKey l.blockHash = true ∨
        storage.blocks.containsKey l.blockHash = true
  | _, _ => True

instance (P : Primitives) (cfg : NodeConfig) (storage : Storage) (n : ConsensusNode)
    (input : NodeInput) (frames : List Frame) :
    Decidable (KeepsLockedAt P cfg storage n input frames) := by
  cases input with
  | restore order restored manifest =>
    cases restored with
    | false => exact .isTrue trivial
    | true => exact inferInstanceAs (Decidable (manifest.blockHash = _))
  | interpret answers =>
    rcases frames with _ | ⟨⟨_ | ⟨u, buf⟩, _ | ⟨a, rest⟩⟩, frames⟩
    · exact .isTrue trivial
    · exact inferInstanceAs (Decidable (∀ l ∈ List.foldl _ _ _, _ ∨ _))
    · cases a with
      | persist u => exact .isTrue trivial
      | commit block => exact inferInstanceAs (Decidable (∀ l ∈ storage.locked, ∀ e ∈ _, _ ≠ _))
      | _ => exact inferInstanceAs (Decidable (∀ l ∈ List.foldl _ _ _, _ ∨ _))
    · exact inferInstanceAs (Decidable (∀ l ∈ List.foldl _ _ _, _ ∨ _))
    · cases a with
      | persist u => exact .isTrue trivial
      | _ => exact inferInstanceAs (Decidable (∀ l ∈ List.foldl _ _ _, _ ∨ _))
  | _ => exact .isTrue trivial

def KeepsLocked (P : Primitives) (cfg : NodeConfig) (m : Machine) (input : NodeInput) : Prop :=
  ∀ p ∈ m.process, KeepsLockedAt P cfg m.storage p.node input p.frames

instance (P : Primitives) (cfg : NodeConfig) (m : Machine) :
    DecidablePred (KeepsLocked P cfg m) :=
  fun input => inferInstanceAs (Decidable (∀ p ∈ m.process,
    KeepsLockedAt P cfg m.storage p.node input p.frames))

section
variable {P : Primitives} {V : Verifier} {R : ReconfigPrimitives} {cfg : NodeConfig}
  {m : Machine} {n : ConsensusNode} {frames : List Frame}

theorem storage_feed (m : Machine) (frames : List Frame) (order : IterOrder)
    (fed : ConsensusNode × Option Event) : (m.feed P frames order fed).storage = m.storage := by
  unfold Machine.feed
  cases fed.2 <;> rfl

theorem holdsLock_handleAction (h : m.storage.HoldsLock P) {answers : Answers} {action : Action}
    {rest : List Action} (ha : ∀ u, action ≠ .persist u)
    (hk : KeepsLockedAt P cfg m.storage n (.interpret answers) (⟨[], action :: rest⟩ :: frames))
    (frames' : List Frame) :
    (m.handleAction P V R cfg n frames' answers action).storage.HoldsLock P := by
  cases action with
  | broadcast msg =>
    cases msg <;> simp only [Machine.handleAction] <;> split_ifs <;> exact h
  | persist u => exact absurd rfl (ha u)
  | commit block =>
    simp only [Machine.handleAction]
    cases hc : n.applyCommit P R cfg m.storage block with
    | none => exact h
    | some r => exact ConsensusNode.holdsLock_applyCommit h hc hk
  | buildProposal view highQc parent =>
    simp only [Machine.handleAction]
    cases (if n.isFull = true then none else answers.built) <;> exact h
  | _ => exact h

theorem holdsLock_interpret (h : m.storage.HoldsLock P) {answers : Answers}
    (hp : PendingAll P (fun _ => True) n.core.state)
    (hk : KeepsLockedAt P cfg m.storage n (.interpret answers) frames) :
    (m.interpret P V R cfg n frames answers).storage.HoldsLock P := by
  have hkeyed : ∀ h b, n.core.state.pendingBlocks.get? h = some b → b.hash P = h :=
    fun h b hb => (hp h b hb).1
  cases frames with
  | nil => exact h
  | cons frame frames =>
    obtain ⟨buf, rest⟩ := frame
    cases rest with
    | nil => exact h.persistUpdates hkeyed hk
    | cons action rest =>
      have hother : (∀ u, action ≠ .persist u) →
          (if buf.isEmpty then m.handleAction P V R cfg n (⟨[], rest⟩ :: frames) answers action
          else Machine.keep
            { m with storage := m.storage.persistUpdates n.core.state.pendingBlocks buf } n
            (⟨[], action :: rest⟩ :: frames)).storage.HoldsLock P := by
        intro ha
        cases buf with
        | nil => exact holdsLock_handleAction h ha hk _
        | cons u buf =>
          apply h.persistUpdates hkeyed
          cases action with
          | persist u' => exact absurd rfl (ha u')
          | _ => exact hk
      cases action with
      | persist u => exact h
      | _ => exact hother fun u => Action.noConfusion

theorem holdsLock_step (h : m.storage.HoldsLock P) (hb : BlocksAll P (fun _ => True) m)
    {input : NodeInput} (hk : KeepsLocked P cfg m input) :
    (m.step P V R cfg input).storage.HoldsLock P := by
  unfold Machine.step
  cases hp : m.process with
  | none =>
    cases input with
    | boot =>
      simp only [Machine.boot]
      cases ConsensusNode.recover P cfg m.storage with
      | none => exact h
      | some n =>
        simp only
        split_ifs <;> exact h
    | _ => exact h
  | some p =>
    obtain ⟨n, frames⟩ := p
    have hkeep := hk _ hp
    cases input with
    | dispatch order validated d =>
      simp only [storage_feed]
      exact h
    | becomeLeader view =>
      simp only
      split_ifs <;> exact h
    | restore order restored manifest =>
      simp only
      split_ifs with hr
      · rw [storage_feed]
        rw [hr] at hkeep
        exact ConsensusNode.holdsLock_restore h n hkeep
      · exact h
    | interpret answers => exact holdsLock_interpret h (hb.pending _ hp) hkeep
    | releaseStashed =>
      simp only [Machine.releaseStashed]
      cases n.stashedProposal <;> exact h
    | _ => exact h

end

/-! ### Recovery -/

theorem Table.size_insert_le {K V : Type} [DecidableEq K] (t : Table K V) (k : K) (v : V) :
    Table.size (t.insert k v) ≤ t.size + 1 :=
  Nat.succ_le_succ (List.kerase_sublist k t.entries).length_le

/-- The pending blocks of `s` have room for `n` more. -/
def HotStuffState.RoomFor (s : HotStuffState) (n : ℕ) : Prop :=
  s.pendingBlocks.size + n ≤ s.pendingBlocksCapacity

theorem HotStuffState.RoomFor.insertPending {P : Primitives} {s : HotStuffState} {n : ℕ}
    (h : s.RoomFor (n + 1)) (b : Block) :
    (s.insertPending P b).RoomFor n ∧ ∀ hash, (s.insertPending P b).getPending hash =
      if hash = b.hash P then some b else s.getPending hash := by
  have hroom : s.HasRoomFor P b := by
    right
    unfold RoomFor at h
    omega
  refine ⟨?_, hroom.getPending_insertPending⟩
  have hevict : s.evictPendingToFitOne = s := if_pos (by unfold RoomFor at h; omega)
  have hpending : (s.insertPending P b).pendingBlocks = s.pendingBlocks.insert (b.hash P) b := by
    unfold HotStuffState.insertPending
    simp only [hevict, ite_self]
  have hsize := Table.size_insert_le s.pendingBlocks (b.hash P) b
  unfold RoomFor at h ⊢
  rw [hpending, insertPending_pendingBlocksCapacity]
  omega

/-- With room for all, rehydrating keeps what is pending. -/
theorem containsKey_rehydrateAncestors {P : Primitives} {storage : Storage} {n k : ℕ}
    {s : HotStuffState} (h : s.RoomFor (n + k)) (cursor : BlockHash) :
    (rehydrateAncestors P storage n s cursor).RoomFor k ∧
      ∀ hash, s.pendingBlocks.containsKey hash = true →
        (rehydrateAncestors P storage n s cursor).pendingBlocks.containsKey hash = true := by
  induction n generalizing s cursor with
  | zero =>
    rw [Nat.zero_add] at h
    exact ⟨h, fun _ hc => hc⟩
  | succ n ih =>
    have hle : s.RoomFor (n + k) := by
      unfold RoomFor at h ⊢
      omega
    have hzero : s.RoomFor k := by
      unfold RoomFor at h ⊢
      omega
    rw [rehydrateAncestors]
    cases s.pendingBlocks.get? cursor with
    | some b =>
      simp only
      split_ifs
      · exact ⟨hzero, fun _ hc => hc⟩
      · exact ih hle _
    | none =>
      cases storage.blocks.get? cursor with
      | none => exact ⟨hzero, fun _ hc => hc⟩
      | some b =>
        have hsucc : s.RoomFor (n + k + 1) := by
          unfold RoomFor at h ⊢
          omega
        obtain ⟨hroom, hget⟩ := hsucc.insertPending (P := P) b
        have hkeep : ∀ hash, s.pendingBlocks.containsKey hash = true →
            (s.insertPending P b).pendingBlocks.containsKey hash = true := by
          intro hash hc
          obtain ⟨b', hb'⟩ := (Table.containsKey_iff _ _).mp hc
          have hnew := hget hash
          rw [show s.getPending hash = some b' from hb'] at hnew
          split_ifs at hnew
          · exact (Table.containsKey_iff _ _).mpr ⟨b, hnew⟩
          · exact (Table.containsKey_iff _ _).mpr ⟨b', hnew⟩
        simp only
        split_ifs
        · refine ⟨?_, hkeep⟩
          unfold RoomFor at hroom ⊢
          omega
        · obtain ⟨hleft, hrest⟩ := ih hroom b.header.parentHash
          exact ⟨hleft, fun hash hc => hrest hash (hkeep hash hc)⟩

/-- A stored block that is asked for first is pending afterwards. -/
theorem containsKey_cursor {P : Primitives} {storage : Storage} {n k : ℕ} {s : HotStuffState}
    (h : s.RoomFor (n + 1 + k)) (hkeyed : ∀ h b, storage.blocks.get? h = some b → b.hash P = h)
    {cursor : BlockHash} (hc : storage.blocks.containsKey cursor = true) :
    (rehydrateAncestors P storage (n + 1) s cursor).pendingBlocks.containsKey cursor = true := by
  cases hs : s.pendingBlocks.get? cursor with
  | some b =>
    apply (containsKey_rehydrateAncestors h cursor).2
    exact (Table.containsKey_iff _ _).mpr ⟨b, hs⟩
  | none =>
    obtain ⟨b, hb⟩ := (Table.containsKey_iff _ _).mp hc
    have hsucc : s.RoomFor (n + k + 1) := by
      unfold RoomFor at h ⊢
      omega
    obtain ⟨hroom, -⟩ := hsucc.insertPending (P := P) b
    have hself : (s.insertPending P b).pendingBlocks.containsKey cursor = true := by
      rw [← hkeyed cursor b hb]
      exact (Table.containsKey_iff _ _).mpr ⟨b, getPending_insertPending_self P s b⟩
    rw [rehydrateAncestors]
    simp only [hs, hb]
    split_ifs
    · exact hself
    · exact (containsKey_rehydrateAncestors hroom _).2 _ hself

theorem containsKey_recoverState {P : Primitives} {storage : Storage} (h : storage.HoldsLock P)
    (vs : ValidatorSet) (genesis : Block) : ∀ l ∈ storage.locked,
      (recoverState P storage vs genesis).pendingBlocks.containsKey l.blockHash = true := by
  intro l hl
  generalize hfresh : ({ HotStuffState.new P vs genesis with
    highQc := some (storage.highQc.getD (genesisQc P genesis vs))
    lastVotedView := storage.durableVotedView
    locked := storage.locked } : HotStuffState) = fresh
  have hroom : fresh.RoomFor (recoverParentHops + 1 + (recoverParentHops + 1)) := by
    rw [← hfresh]
    show 1 + (recoverParentHops + 1 + (recoverParentHops + 1)) ≤ usizeMax
    decide
  have hfirst : (rehydrateAncestors P storage (recoverParentHops + 1) fresh
      (storage.highQc.getD (genesisQc P genesis vs)).blockHash).RoomFor (recoverParentHops + 1) :=
    (containsKey_rehydrateAncestors hroom _).1
  have hcursor := containsKey_cursor (k := 0) hfirst h.keyed (h.stored l hl)
  have hlocked : (rehydrateAncestors P storage (recoverParentHops + 1) fresh
      (storage.highQc.getD (genesisQc P genesis vs)).blockHash).locked = storage.locked := by
    apply rehydrateAncestors_invariant (I := fun s => s.locked = storage.locked)
    · intro s b _ _ hs
      rw [insertPending_locked, hs]
    · rw [← hfresh]
  unfold recoverState
  simp only [hfresh]
  rw [hlocked, Option.mem_def.mp hl]
  exact hcursor

/-- The core that a restart begins with: `recover_state` and the persisted marker. -/
def recoveredCore (P : Primitives) (cfg : NodeConfig) (storage : Storage) : HotStuffCore :=
  (HotStuffCore.withLimits cfg.selfId (recoverState P storage cfg.validatorSet (cfg.genesis P))
    cfg.limits).withProposedInView (storage.proposedInView.getD 0)

/-- The core stands by the messages that have left, each with the lock that was held when it
was emitted. -/
structure StandsBy (delivered : List (ConsensusMsg × Option Locked)) (c : HotStuffCore) :
    Prop where
  voted : ∀ vote held, (.vote vote, held) ∈ delivered → vote.view ≤ c.state.lastVotedView
  locked : ∀ vote held, (.vote vote, held) ∈ delivered →
    ∀ l ∈ held, ∃ l' ∈ c.state.locked, l.view ≤ l'.view ∧ l.height ≤ l'.height
  lockedBlock : ∀ l ∈ c.state.locked, c.state.pendingBlocks.containsKey l.blockHash = true
  highQc : ∀ nv held, (.newView nv, held) ∈ delivered →
    ∃ qc ∈ c.state.highQc, nv.highQc.view ≤ qc.view
  proposed : ∀ p held, (.proposal p, held) ∈ delivered →
    p.block.header.view ≤ c.proposedInView

/-- All that has been promised is on disk. -/
structure Promised (P : Primitives) (w : Logbook) : Prop where
  matched : w.Matches
  blocks : BlocksAll P (fun _ => True) w.machine
  holdsLock : w.machine.storage.HoldsLock P
  voted : Register.voted.Remembers w
  lock : Register.lock.Remembers w
  highQc : Register.highQc.Remembers w
  proposed : Register.proposed.Remembers w

/-- What the input makes the node do keeps its promises, and the block of its lock. -/
def KeepsPromises (P : Primitives) (cfg : NodeConfig) (m : Machine) (input : NodeInput) : Prop :=
  Guarded (promiseGuard P) P m input ∧ KeepsLocked P cfg m input

instance (P : Primitives) (cfg : NodeConfig) (m : Machine) :
    DecidablePred (KeepsPromises P cfg m) :=
  fun _ => inferInstanceAs (Decidable (_ ∧ _))

section
variable {P : Primitives} {V : Verifier} {R : ReconfigPrimitives} {cfg : NodeConfig}
  {w : Logbook}

theorem Promised.start : Promised P .start where
  matched := ⟨rfl, rfl⟩
  blocks := .start
  holdsLock := by
    constructor
    · intro h b hb
      cases hb
    · intro l hl
      cases hl
  voted := Register.voted.remembers_start
  lock := Register.lock.remembers_start
  highQc := Register.highQc.remembers_start
  proposed := Register.proposed.remembers_start

theorem Promised.step (h : Promised P w) {input : NodeInput}
    (hk : KeepsPromises P cfg w.machine input) : Promised P (w.step P V R cfg input) := by
  obtain ⟨hguarded, hkeeps⟩ := hk
  have hstepped : Logbook.Stepped (promiseGuard P) P w (w.step P V R cfg input) :=
    Logbook.stepped_step h.matched hguarded
  exact
    { matched := hstepped.matched
      blocks := h.blocks.step trivial (insertsAll_true P w.machine input)
      holdsLock := holdsLock_step h.holdsLock h.blocks hkeeps
      voted := h.voted.turn Register.obeys_voted hstepped.turn
      lock := h.lock.turn Register.obeys_lock hstepped.turn
      highQc := h.highQc.turn Register.obeys_highQc hstepped.turn
      proposed := h.proposed.turn Register.obeys_proposed hstepped.turn }

/-- A core with the records on disk, and the block of the lock, stands by all promises. -/
theorem Promised.standsBy (h : Promised P w) {c : HotStuffCore}
    (hrecords : c.records = w.machine.storage.records) (hqc : c.state.highQc.isSome)
    (hblock : ∀ l ∈ w.machine.storage.locked,
      c.state.pendingBlocks.containsKey l.blockHash = true) : StandsBy w.delivered c := by
  have hlocked : c.state.locked = w.machine.storage.locked := congrArg Records.locked hrecords
  constructor
  · intro vote held he
    have hle := h.voted.durable _ he vote.view rfl
    rwa [← hrecords] at hle
  · intro vote held he
    have hle := h.lock.durable _ he (lockLevel held) rfl
    rw [← hrecords] at hle
    exact lockLevel_le_iff.mp hle
  · rw [hlocked]
    exact hblock
  · intro nv held he
    obtain ⟨qc, hq⟩ := Option.isSome_iff_exists.mp hqc
    have hle := h.highQc.durable _ he nv.highQc.view rfl
    have hview : Register.highQc.read c.records = qc.view := by
      show qcView c.state.highQc = qc.view
      rw [hq]
      rfl
    rw [← hrecords, hview] at hle
    exact ⟨qc, hq, hle⟩
  · intro p held he
    have hle := h.proposed.durable _ he p.block.header.view rfl
    rwa [← hrecords] at hle

theorem Promised.recovered (h : Promised P w) (cfg : NodeConfig) :
    StandsBy w.delivered (recoveredCore P cfg w.machine.storage) := by
  apply h.standsBy
  · exact ConsensusNode.withLimits_records P cfg w.machine.storage
  · have hqc := (ConsensusNode.recoverState_records P w.machine.storage cfg.validatorSet
      (cfg.genesis P)).2.2
    exact Option.isSome_iff_exists.mpr ⟨_, hqc⟩
  · exact containsKey_recoverState h.holdsLock cfg.validatorSet (cfg.genesis P)

end

/-- In every run whose inputs keep the promises of the node, what it would recover after a crash
stands by every message that has left it. -/
theorem recovered_standsBy (P : Primitives) (V : Verifier) (R : ReconfigPrimitives)
    (cfg : NodeConfig) (inputs : List NodeInput)
    (h : Along (Machine.step P V R cfg) (KeepsPromises P cfg) .start inputs) :
    let w := run (Logbook.step P V R cfg) .start inputs
    w.machine = run (Machine.step P V R cfg) .start inputs ∧
      w.delivered.map Prod.fst = w.machine.sent ∧
      StandsBy w.delivered (recoveredCore P cfg w.machine.storage) := by
  have himage : ∀ (w : Logbook) (input : NodeInput),
      (w.step P V R cfg input).machine = w.machine.step P V R cfg input := fun _ _ => rfl
  have hkeeps : Along (Logbook.step P V R cfg) (fun w => KeepsPromises P cfg w.machine) .start
      inputs := (along_image himage _ _ _).mpr h
  have hpromised : Promised P (run (Logbook.step P V R cfg) .start inputs) :=
    hkeeps.invariant (fun w input hk (hw : Promised P w) => hw.step hk) .start
  exact ⟨run_image himage .start inputs, hpromised.matched.delivered, hpromised.recovered cfg⟩

namespace Sample

def block₆ : Block := blockOn block₅ 6 0 []

/-- A chain of three blocks, voted for and locked on, then a proposal of the node itself. -/
def chained : List NodeInput :=
  [.boot, proposed block₅ (genesisQc timed root validators)] ++ rounds 4 ++
    [proposed block₆ (certificate block₅)] ++ rounds 5 ++
    [proposed (blockOn block₆ 7 0 []) (certificate block₆)] ++ rounds 6 ++
    [advanceByTimeout 7] ++ rounds 1 ++ [built (blockOn block₆ 8 0 [])] ++ rounds 4

theorem standsBy_chained :
    let w := run (Logbook.step timed verifier reconfigs config) .start chained
    w.machine.sent.length = 5 ∧
      w.machine.storage.locked = some ⟨5, 1, block₅.hash timed⟩ ∧
      w.machine = run stepNode .start chained ∧ w.delivered.map Prod.fst = w.machine.sent ∧
      StandsBy w.delivered (recoveredCore timed config w.machine.storage) := by
  have h := recovered_standsBy timed verifier reconfigs config chained (by decide +kernel)
  exact ⟨by decide +kernel, by decide +kernel, h⟩

/-- The proposal of view 8 has left the node, and the marker is that of view 4. -/
theorem marker_lost :
    let w := run (Logbook.step timed verifier reconfigs config) .start (behind ++ nested)
    .proposal (proposal₈ 0) ∈ w.delivered.map Prod.fst ∧
      (recoveredCore timed config w.machine.storage).proposedInView = 4 ∧
      ¬StandsBy w.delivered (recoveredCore timed config w.machine.storage) := by
  intro w
  have hsent : .proposal (proposal₈ 0) ∈ w.delivered.map Prod.fst := by decide +kernel
  have hmarker : (recoveredCore timed config w.machine.storage).proposedInView = 4 := by
    decide +kernel
  refine ⟨hsent, hmarker, fun h => ?_⟩
  obtain ⟨⟨msg, held⟩, he, rfl⟩ := List.mem_map.mp hsent
  have hle := h.proposed (proposal₈ 0) held he
  rw [hmarker] at hle
  exact absurd hle (by decide)

end Sample

end Boule
