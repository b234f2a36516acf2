import Boule.Node.CommitRecord
import Mathlib.Logic.Relation

/-! The weak-subjectivity checkpoint: where it is checked, and which chains get past it. -/
namespace Boule
open ConsensusNode

/-! ### Ancestors -/

section
variable (P : Primitives)

def ParentOf (a b : Block) : Prop :=
  b.header.parentHash = a.hash P ∧ b.header.height = a.header.height + 1

/-- The second block is the first one or has it among its ancestors. -/
def Descends : Block → Block → Prop := Relation.ReflTransGen (ParentOf P)

/-- The ancestor of the block at the height of the checkpoint has its hash. -/
def OnCheckpoint (checkpoint : ℕ × BlockHash) (block : Block) : Prop :=
  ∃ a, a.header.height = checkpoint.1 ∧ a.hash P = checkpoint.2 ∧ Descends P a block

end

section
variable {P : Primitives} {checkpoint : ℕ × BlockHash} {a b : Block}

theorem OnCheckpoint.of_descends (h : OnCheckpoint P checkpoint a) (hd : Descends P a b) :
    OnCheckpoint P checkpoint b := by
  obtain ⟨c, hheight, hhash, hc⟩ := h
  exact ⟨c, hheight, hhash, hc.trans hd⟩

theorem Descends.height_le (h : Descends P a b) : a.header.height ≤ b.header.height := by
  induction h with
  | refl => exact le_rfl
  | tail _ hparent ih =>
    have hnext := hparent.2
    omega

/-- A block at the height of the checkpoint is on it when it is its block. -/
theorem onCheckpoint_iff (h : b.header.height = checkpoint.1) :
    OnCheckpoint P checkpoint b ↔ b.hash P = checkpoint.2 := by
  constructor
  · rintro ⟨c, hheight, hhash, hd⟩
    cases hd with
    | refl => exact hhash
    | tail hbefore hparent =>
      have hle := Descends.height_le hbefore
      have hnext := hparent.2
      omega
  · intro hhash
    exact ⟨b, h, hhash, .refl⟩

/-- The parent of a block right above the checkpoint is its block. -/
theorem OnCheckpoint.parent (h : OnCheckpoint P checkpoint b)
    (hnext : b.header.height = checkpoint.1 + 1) : b.header.parentHash = checkpoint.2 := by
  obtain ⟨c, hheight, hhash, hd⟩ := h
  cases hd with
  | refl => omega
  | @tail parent _ hbefore hparent =>
    have hparentHeight : parent.header.height = checkpoint.1 := by
      have hstep := hparent.2
      omega
    have hat := (onCheckpoint_iff hparentHeight).mp ⟨c, hheight, hhash, hbefore⟩
    rw [hparent.1, hat]

end

/-! ### The two checks -/

/-- `verify_weak_subjectivity_on_startup`: whether the node goes on. -/
def verifyWeakSubjectivityOnStartup (cfg : NodeConfig) (storage : Storage) (n : ConsensusNode) :
    Bool :=
  match cfg.weakSubjectivityCheckpoint with
  | none => true
  | some checkpoint =>
    if n.lastCommittedHeight < checkpoint.1 then true
    else
      match storage.heights.get? checkpoint.1 with
      | none => true
      | some hash =>
        !weakSubjectivityViolation cfg.weakSubjectivityCheckpoint checkpoint.1 hash

/-- The disk of a node and whether its process runs; a violated checkpoint ends it. -/
structure CheckedArchive where
  archive : Archive
  running : Bool

namespace CheckedArchive

section
variable (P : Primitives) (cfg : NodeConfig)

def start (n : ConsensusNode) : CheckedArchive := ⟨⟨.empty, n, [], []⟩, false⟩

/-- A process that has ended takes nothing but a restart. -/
def step (s : CheckedArchive) : ArchiveInput → CheckedArchive
  | .restart =>
    match recover P cfg s.archive.storage with
    | none => { s with running := false }
    | some n =>
      { archive := { s.archive with node := n }
        running := verifyWeakSubjectivityOnStartup cfg s.archive.storage n }
  | .commit block =>
    if !s.running then s
    else
      { archive := s.archive.step P cfg (.commit block)
        running := (s.archive.node.commitBatch P cfg s.archive.storage block).isSome }
  | input => if !s.running then s else { s with archive := s.archive.step P cfg input }

/-- The block that was committed or adopted last, genesis at first. -/
def lastBlock (s : CheckedArchive) : Block := s.archive.committed.getLast?.getD (cfg.genesis P)

def durableHeight (s : CheckedArchive) : ℕ :=
  (s.archive.storage.lastCommitted.getD ⟨0, 0, 0⟩).height

/-- A running node that has come as far as the checkpoint is on it. -/
def Bound (checkpoint : ℕ × BlockHash) (s : CheckedArchive) : Prop :=
  s.running → checkpoint.1 ≤ s.archive.node.lastCommittedHeight ∨ checkpoint.1 ≤ s.durableHeight →
    OnCheckpoint P checkpoint (s.lastBlock P cfg)

/-- A block above the checkpoint that is committed descends from the last one, if that has come as
far, or from the checkpoint; a snapshot above it that is restored descends from it; and a node that
starts with nothing committed has a checkpoint above genesis or at it. -/
def StaysOn (checkpoint : ℕ × BlockHash) (s : CheckedArchive) : ArchiveInput → Prop
  | .restart => (s.step P cfg .restart).running → s.archive.committed = [] → checkpoint.1 = 0 →
      (cfg.genesis P).hash P = checkpoint.2
  | .commit block => s.running → block.header.height ≠ checkpoint.1 →
      checkpoint.1 ≤ max s.archive.node.lastCommittedHeight block.header.height →
      (checkpoint.1 ≤ s.archive.node.lastCommittedHeight ∧ Descends P (s.lastBlock P cfg) block) ∨
        OnCheckpoint P checkpoint block
  | .restore m => s.running →
      checkpoint.1 ≤ max s.archive.node.lastCommittedHeight m.height →
      OnCheckpoint P checkpoint m.block
  | _ => True

/-- What the steps of a run keep, also while the process is down. -/
structure Anchored (checkpoint : ℕ × BlockHash) (s : CheckedArchive) : Prop where
  genesis : s.archive.committed = [] → s.durableHeight = 0
  durable : s.archive.committed ≠ [] → checkpoint.1 ≤ s.durableHeight →
    OnCheckpoint P checkpoint (s.lastBlock P cfg)
  memory : s.running → checkpoint.1 ≤ s.archive.node.lastCommittedHeight →
    OnCheckpoint P checkpoint (s.lastBlock P cfg)

end

section
variable {P : Primitives} {cfg : NodeConfig} {checkpoint : ℕ × BlockHash} {s : CheckedArchive}

theorem Anchored.bound (h : s.Anchored P cfg checkpoint) : s.Bound P cfg checkpoint := by
  intro hrunning hfar
  rcases hfar with hmemory | hdurable
  · exact h.memory hrunning hmemory
  · by_cases hnone : s.archive.committed = []
    · have hzero := h.genesis hnone
      exact h.memory hrunning (by omega)
    · exact h.durable hnone hdurable

theorem step_commit_of_none {block : Block} (hr : s.running = true)
    (hb : s.archive.node.commitBatch P cfg s.archive.storage block = none) :
    s.step P cfg (.commit block) = { s with running := false } := by
  simp [step, Archive.step, hr, hb]

theorem step_commit_of_some {block : Block} {r : Storage × ConsensusNode} (hr : s.running = true)
    (hb : s.archive.node.commitBatch P cfg s.archive.storage block = some r) :
    (s.step P cfg (.commit block)).running = true ∧
      (s.step P cfg (.commit block)).archive.committed ≠ [] ∧
      (s.step P cfg (.commit block)).lastBlock P cfg = block ∧
      (s.step P cfg (.commit block)).archive.node.lastCommittedHeight =
        max s.archive.node.lastCommittedHeight block.header.height ∧
      (s.step P cfg (.commit block)).durableHeight =
        max s.archive.node.lastCommittedHeight block.header.height := by
  have hbatch := commitBatch_of_some hb
  have hheight : r.2.lastCommittedHeight =
      max s.archive.node.lastCommittedHeight block.header.height := by
    rw [hbatch.height]
    split_ifs <;> omega
  simp [step, Archive.step, hr, hb, lastBlock, durableHeight, hbatch.lastCommitted, hheight]

variable (P cfg) in
theorem step_restore (m : SnapshotManifest) (hr : s.running = true) :
    (s.step P cfg (.restore m)).running = true ∧
      (s.step P cfg (.restore m)).archive.committed ≠ [] ∧
      (s.step P cfg (.restore m)).lastBlock P cfg = m.block ∧
      (s.step P cfg (.restore m)).archive.node.lastCommittedHeight =
        max s.archive.node.lastCommittedHeight m.height ∧
      (s.step P cfg (.restore m)).durableHeight = m.height := by
  have hlast := (Archive.writeSnapshot_fields s.archive.storage m
    (s.archive.node.core.adoptSnapshot P m.block m.commitQc m.view).2).2.2
  have hheight := lastCommittedHeight_raiseCommitted (s.archive.node.adopt P m) m
  refine ⟨?_, ?_, ?_, ?_, ?_⟩
  · simp [step, hr]
  · simp [step, Archive.step, hr]
  · simp [step, Archive.step, hr, lastBlock]
  · simp only [step, Archive.step, hr, Bool.not_true]
    exact hheight
  · simp [step, Archive.step, hr, durableHeight, hlast]

/-- A block that the node commits at the height of the checkpoint is its block. -/
theorem hash_of_commit (hcp : cfg.weakSubjectivityCheckpoint = some checkpoint) {block : Block}
    {storage : Storage} {n : ConsensusNode} {r : Storage × ConsensusNode}
    (hb : n.commitBatch P cfg storage block = some r)
    (hheight : block.header.height = checkpoint.1) : block.hash P = checkpoint.2 := by
  by_contra hne
  have hviolated : weakSubjectivityViolation cfg.weakSubjectivityCheckpoint block.header.height
      (block.hash P) = true := by
    rw [hcp]
    simp [weakSubjectivityViolation, hheight, hne]
  rw [commitBatch_eq_none_iff.mpr hviolated] at hb
  cases hb

/-- Commits and restores that stay on the checkpoint leave the node there. -/
theorem Anchored.commit (hcp : cfg.weakSubjectivityCheckpoint = some checkpoint) {block : Block}
    (h : s.Anchored P cfg checkpoint) (hr : s.running = true)
    (hstays : s.StaysOn P cfg checkpoint (.commit block)) :
    (s.step P cfg (.commit block)).Anchored P cfg checkpoint := by
  cases hb : s.archive.node.commitBatch P cfg s.archive.storage block with
  | none =>
    rw [step_commit_of_none hr hb]
    exact ⟨h.genesis, h.durable, fun hrunning => nomatch hrunning⟩
  | some r =>
    obtain ⟨-, hsome, hlast, hmemory, hdurable⟩ := step_commit_of_some hr hb
    have hon : checkpoint.1 ≤ max s.archive.node.lastCommittedHeight block.header.height →
        OnCheckpoint P checkpoint block := by
      intro hfar
      by_cases hheight : block.header.height = checkpoint.1
      · exact (onCheckpoint_iff hheight).mpr (hash_of_commit hcp hb hheight)
      · rcases hstays hr hheight hfar with ⟨hbefore, hd⟩ | hon
        · exact (h.memory hr hbefore).of_descends hd
        · exact hon
    refine ⟨fun hnone => absurd hnone hsome, fun _ => ?_, fun _ => ?_⟩
    · rw [hdurable, hlast]
      exact hon
    · rw [hmemory, hlast]
      exact hon

theorem Anchored.restore {m : SnapshotManifest} (hr : s.running = true)
    (hstays : s.StaysOn P cfg checkpoint (.restore m)) :
    (s.step P cfg (.restore m)).Anchored P cfg checkpoint := by
  obtain ⟨-, hsome, hlast, hmemory, hdurable⟩ := step_restore P cfg m hr
  refine ⟨fun hnone => absurd hnone hsome, fun _ => ?_, fun _ => ?_⟩
  · rw [hdurable, hlast]
    exact fun hfar => hstays hr (hfar.trans (le_max_right ..))
  · rw [hmemory, hlast]
    exact hstays hr

/-- A process that starts again counts from the durable record. -/
theorem Anchored.restart (h : s.Anchored P cfg checkpoint)
    (hstays : s.StaysOn P cfg checkpoint .restart) :
    (s.step P cfg .restart).Anchored P cfg checkpoint := by
  simp only [StaysOn] at hstays
  unfold step at hstays ⊢
  cases hn : recover P cfg s.archive.storage with
  | none => exact ⟨h.genesis, h.durable, fun hrunning => nomatch hrunning⟩
  | some n =>
    simp only [hn] at hstays
    have hheight : n.lastCommittedHeight = s.durableHeight := (counters_recover hn).1
    refine ⟨h.genesis, h.durable, fun hrunning hfar => ?_⟩
    simp only [hheight] at hfar
    by_cases hnone : s.archive.committed = []
    · have hzero : checkpoint.1 = 0 := by
        have hdurable := h.genesis hnone
        omega
      have hlast : s.lastBlock P cfg = cfg.genesis P := by
        simp [lastBlock, hnone]
      have hon := (onCheckpoint_iff (b := cfg.genesis P) hzero.symm).mpr
        (hstays hrunning hnone hzero)
      rw [← hlast] at hon
      exact hon
    · exact h.durable hnone hfar

theorem Anchored.step (hcp : cfg.weakSubjectivityCheckpoint = some checkpoint)
    (h : s.Anchored P cfg checkpoint) (input : ArchiveInput)
    (hstays : s.StaysOn P cfg checkpoint input) :
    (s.step P cfg input).Anchored P cfg checkpoint := by
  cases hr : s.running with
  | false =>
    cases input with
    | restart => exact h.restart hstays
    | _ => simpa [CheckedArchive.step, hr] using h
  | true =>
    cases input with
    | restart => exact h.restart hstays
    | commit block => exact h.commit hcp hr hstays
    | restore m => exact Anchored.restore hr hstays
    | persist pending updates =>
      have hlast := (persistUpdates_keeps s.archive.storage pending updates).2
      have hsame : (s.step P cfg (.persist pending updates)).durableHeight = s.durableHeight := by
        simp [CheckedArchive.step, Archive.step, hr, durableHeight, hlast]
      have hkept : (s.step P cfg (.persist pending updates)).archive.committed =
            s.archive.committed ∧
          (s.step P cfg (.persist pending updates)).archive.node = s.archive.node := by
        simp [CheckedArchive.step, Archive.step, hr]
      have hlastBlock : (s.step P cfg (.persist pending updates)).lastBlock P cfg =
          s.lastBlock P cfg := by
        simp [lastBlock, hkept.1]
      refine ⟨?_, ?_, fun _ => ?_⟩
      · rw [hkept.1, hsame]
        exact h.genesis
      · rw [hkept.1, hsame, hlastBlock]
        exact h.durable
      · rw [hkept.2, hlastBlock]
        exact h.memory hr
    | other storage node =>
      have hsame : s.step P cfg (.other storage node) =
          { s with archive := s.archive.rewrite storage node } := by
        simp [CheckedArchive.step, Archive.step, hr]
      rw [hsame]
      exact ⟨h.genesis, h.durable, fun _ => h.memory hr⟩

/-- Where a commit or a restore leaves a node on the checkpoint, it has stayed on it. -/
theorem staysOn_of_bound (hcp : cfg.weakSubjectivityCheckpoint = some checkpoint)
    {input : ArchiveInput} (h : (s.step P cfg input).Bound P cfg checkpoint) :
    s.StaysOn P cfg checkpoint input := by
  cases input with
  | restart =>
    intro hrunning hnone hzero
    have hsame : (s.step P cfg .restart).archive.committed = s.archive.committed := by
      unfold step
      cases recover P cfg s.archive.storage <;> rfl
    have hlast : (s.step P cfg .restart).lastBlock P cfg = cfg.genesis P := by
      simp [lastBlock, hsame, hnone]
    have hon := h hrunning (.inl (hzero ▸ Nat.zero_le _))
    rw [hlast] at hon
    exact (onCheckpoint_iff (b := cfg.genesis P) hzero.symm).mp hon
  | commit block =>
    intro hr hne hfar
    cases hb : s.archive.node.commitBatch P cfg s.archive.storage block with
    | none =>
      have hviolated := commitBatch_eq_none_iff.mp hb
      rw [hcp] at hviolated
      have hheight : block.header.height = checkpoint.1 := by
        simp [weakSubjectivityViolation] at hviolated
        exact hviolated.1
      exact absurd hheight hne
    | some r =>
      obtain ⟨hrunning, -, hlast, hmemory, -⟩ := step_commit_of_some hr hb
      have hon := h hrunning (.inl (hmemory ▸ hfar))
      rw [hlast] at hon
      exact .inr hon
  | restore m =>
    intro hr hfar
    obtain ⟨hrunning, -, hlast, hmemory, -⟩ := step_restore P cfg m hr
    have hon := h hrunning (.inl (hmemory ▸ hfar))
    rw [hlast] at hon
    exact hon
  | _ => trivial

end

end CheckedArchive

/-- A node with a checkpoint is bound to it in every state of a run exactly when each commit and
each restore of the run stays on it. -/
theorem checkpoint_binds_iff {P : Primitives} {cfg : NodeConfig} {checkpoint : ℕ × BlockHash}
    (hcp : cfg.weakSubjectivityCheckpoint = some checkpoint) (n : ConsensusNode)
    (inputs : List ArchiveInput) :
    (∀ k, (run (CheckedArchive.step P cfg) (.start n) (inputs.take k)).Bound P cfg checkpoint) ↔
      Along (CheckedArchive.step P cfg) (CheckedArchive.StaysOn P cfg checkpoint) (.start n)
        inputs := by
  have hstart : (CheckedArchive.start n).Anchored P cfg checkpoint :=
    ⟨fun _ => rfl, fun hsome => absurd rfl hsome, fun hrunning => nomatch hrunning⟩
  constructor
  · generalize CheckedArchive.start n = s
    intro h
    induction inputs generalizing s with
    | nil => trivial
    | cons input inputs ih =>
      exact ⟨CheckedArchive.staysOn_of_bound hcp (h 1), ih _ fun k => h (k + 1)⟩
  · intro h k
    have hbegins := h.take k
    exact (hbegins.invariant (fun _ input hstays ha => ha.step hcp input hstays) hstart).bound

namespace Sample

/-- A checkpoint at the height of the first block. -/
def wary (hash : BlockHash) : NodeConfig :=
  { config with weakSubjectivityCheckpoint := some (1, hash) }

/-- A snapshot of another chain, and a block above the checkpoint with none at it. -/
theorem unbound_run : ∃ n ∈ recover timed (wary 0) .empty,
    (snapshotOf changing).verify timed operatorHash n.validatorSet = .ok () ∧
      ¬ (run (CheckedArchive.step timed (wary 0)) (.start n)
        [.restart, .restore (snapshotOf changing)]).Bound timed (wary 0) (1, 0) ∧
      ¬ (run (CheckedArchive.step timed (wary 0)) (.start n)
        [.restart, .commit upper]).Bound timed (wary 0) (1, 0) := by
  obtain ⟨n, hn, hverified, hrestored, hjumped⟩ : ∃ n ∈ recover timed (wary 0) .empty,
      (snapshotOf changing).verify timed operatorHash n.validatorSet = .ok () ∧
      (let s := run (CheckedArchive.step timed (wary 0)) (.start n)
        [.restart, .restore (snapshotOf changing)]
      s.running ∧ 1 ≤ s.archive.node.lastCommittedHeight ∧
        (s.lastBlock timed (wary 0)).header.height = 1 ∧
        (s.lastBlock timed (wary 0)).hash timed ≠ 0) ∧
      (let s := run (CheckedArchive.step timed (wary 0)) (.start n) [.restart, .commit upper]
      s.running ∧ 1 ≤ s.archive.node.lastCommittedHeight ∧
        (s.lastBlock timed (wary 0)).header.height = 2 ∧
        (s.lastBlock timed (wary 0)).header.parentHash ≠ 0) := by decide +kernel
  refine ⟨n, hn, hverified, fun h => ?_, fun h => ?_⟩
  · obtain ⟨hrunning, hfar, hheight, hne⟩ := hrestored
    exact hne ((onCheckpoint_iff hheight).mp (h hrunning (.inl hfar)))
  · obtain ⟨hrunning, hfar, hheight, hne⟩ := hjumped
    exact hne ((h hrunning (.inl hfar)).parent hheight)

/-- A node that commits the block of its checkpoint and one above it, and restarts. -/
theorem wary_bound : ∃ n ∈ recover timed (wary (lower.hash timed)) .empty,
    ∀ k, (run (CheckedArchive.step timed (wary (lower.hash timed))) (.start n)
      ([.restart, .commit lower, .commit upper, .restart].take k)).Bound timed
        (wary (lower.hash timed)) (1, lower.hash timed) := by
  obtain ⟨n, hn, hheight, hlast⟩ : ∃ n ∈ recover timed (wary (lower.hash timed)) .empty,
      1 ≤ (run (CheckedArchive.step timed (wary (lower.hash timed))) (.start n)
        [.restart, .commit lower]).archive.node.lastCommittedHeight ∧
      (run (CheckedArchive.step timed (wary (lower.hash timed))) (.start n)
        [.restart, .commit lower]).lastBlock timed (wary (lower.hash timed)) = lower := by
    decide +kernel
  refine ⟨n, hn, (checkpoint_binds_iff rfl n _).mpr ⟨?_, ?_, ?_, ?_, trivial⟩⟩
  · exact fun _ _ hzero => absurd hzero (by decide)
  · exact fun _ hne => absurd rfl hne
  · have hparent : ParentOf timed lower upper := ⟨rfl, rfl⟩
    have hd : Descends timed lower upper := .single hparent
    rw [← hlast] at hd
    exact fun _ _ _ => .inl ⟨hheight, hd⟩
  · exact fun _ _ hzero => absurd hzero (by decide)

end Sample

end Boule
