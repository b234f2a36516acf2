import Boule.HotStuff.Accept

/-! Evictions from the pending blocks: what an insertion throws out. The protected blocks follow
the high certificate, not the lock. -/
namespace Boule

namespace HotStuffState

/-- The block is not protected, and no other such block is lower; hashes break ties. -/
structure LowestUnprotected (s : HotStuffState) (hash : BlockHash) (b : Block) : Prop where
  pending : s.getPending hash = some b
  unprotected : hash ∉ s.protectedBlockHashes
  lowest : ∀ h' b', s.getPending h' = some b' → h' ∉ s.protectedBlockHashes →
    toLex (b.header.height, hash) ≤ toLex (b'.header.height, h')

/-- `h'` is reached from `h` over `k` known parents, not going past genesis. -/
def KnownAncestor (s : HotStuffState) : ℕ → BlockHash → BlockHash → Prop
  | 0, h, h' => h' = h
  | k + 1, h, h' => h ≠ s.genesisHash ∧
      ∃ b, s.getPending h = some b ∧ s.KnownAncestor k b.header.parentHash h'

variable {s : HotStuffState} {hash h : BlockHash} {b x : Block}

theorem pendingVictim_eq_some_iff :
    s.pendingVictim = some (hash, b) ↔ s.LowestUnprotected hash b := by
  have hmem : ∀ h x,
      (h, x) ∈ (s.pendingBlocks.retain fun h _ => h ∉ s.protectedBlockHashes).toList ↔
        s.getPending h = some x ∧ h ∉ s.protectedBlockHashes := by
    intro h x
    rw [Table.mem_toList, Table.get?_retain_eq_some, decide_eq_true_iff]
    rfl
  unfold pendingVictim Table.minBy
  rw [← Option.mem_def, List.mem_argmin_iff, hmem]
  constructor
  · rintro ⟨⟨hpending, hfree⟩, hleast, -⟩
    exact ⟨hpending, hfree, fun h' b' hb' hf' => hleast (h', b') ((hmem h' b').mpr ⟨hb', hf'⟩)⟩
  · intro hl
    refine ⟨⟨hl.pending, hl.unprotected⟩, ?_, ?_⟩
    · rintro ⟨h', b'⟩ hm
      obtain ⟨hb', hf'⟩ := (hmem h' b').mp hm
      exact hl.lowest h' b' hb' hf'
    · rintro ⟨h', b'⟩ hm hle
      obtain ⟨hb', hf'⟩ := (hmem h' b').mp hm
      have hrank := le_antisymm (hl.lowest h' b' hb' hf') hle
      obtain ⟨-, rfl⟩ := Prod.mk.inj (toLex.injective hrank)
      rw [Option.some.inj (hb'.symm.trans hl.pending)]

theorem pendingVictim_eq_none_iff : s.pendingVictim = none ↔
    ∀ h ∈ s.pendingBlocks.keys, h ∈ s.protectedBlockHashes := by
  constructor
  · intro hnone h hkey
    obtain ⟨x, hx⟩ := (Table.containsKey_iff _ _).mp (Table.mem_keys_iff.mp hkey)
    by_contra hfree
    have hempty : (s.pendingBlocks.retain fun h _ => h ∉ s.protectedBlockHashes).toList = [] :=
      List.argmin_eq_none.mp hnone
    have hmem : (h, x) ∈ (s.pendingBlocks.retain fun h _ => h ∉ s.protectedBlockHashes).toList := by
      rw [Table.mem_toList, Table.get?_retain_eq_some]
      exact ⟨hx, decide_eq_true hfree⟩
    rw [hempty] at hmem
    exact absurd hmem List.not_mem_nil
  · intro hall
    cases hv : s.pendingVictim with
    | none => rfl
    | some victim =>
      obtain ⟨h, x⟩ := victim
      have hlowest := pendingVictim_eq_some_iff.mp hv
      have hkey : h ∈ s.pendingBlocks.keys :=
        Table.mem_keys_iff.mpr ((Table.containsKey_iff _ _).mpr ⟨x, hlowest.pending⟩)
      exact absurd (hall h hkey) hlowest.unprotected

/-! ### One insertion -/

variable {P : Primitives}

/-- With no room for the block, the lowest unprotected block goes. -/
theorem insertPending_of_lowest (hroom : ¬ s.HasRoomFor P b) (hl : s.LowestUnprotected hash x) :
    (s.insertPending P b).pendingBlocks = (s.pendingBlocks.erase hash).insert (b.hash P) b := by
  obtain ⟨hnew, hfull⟩ := not_or.mp hroom
  have hvictim := pendingVictim_eq_some_iff.mpr hl
  simp only [insertPending, hnew, evictPendingToFitOne, hfull, hvictim]
  rfl

theorem insertPending_of_roomy (hkeep : s.HasRoomFor P b ∨ s.pendingVictim = none) :
    (s.insertPending P b).pendingBlocks = s.pendingBlocks.insert (b.hash P) b := by
  unfold insertPending evictPendingToFitOne
  rcases hkeep with (hold | hspace) | hnone
  · simp only [if_pos hold]
  · simp only [if_pos hspace, ite_self]
  · simp only [hnone, ite_self]

/-- A pending block stays unless it is the lowest unprotected one and there is no room. -/
theorem getPending_insertPending_of_kept (hx : s.getPending h = some x) (hne : h ≠ b.hash P)
    (hkeep : s.HasRoomFor P b ∨ ¬ s.LowestUnprotected h x) :
    (s.insertPending P b).getPending h = some x := by
  unfold getPending
  by_cases hroom : s.HasRoomFor P b
  · rw [insertPending_of_roomy (.inl hroom), Table.get?_insert_of_ne _ hne]
    exact hx
  · cases hv : s.pendingVictim with
    | none =>
      rw [insertPending_of_roomy (.inr hv), Table.get?_insert_of_ne _ hne]
      exact hx
    | some victim =>
      obtain ⟨hash, y⟩ := victim
      have hl := pendingVictim_eq_some_iff.mp hv
      have hother : h ≠ hash := by
        rintro rfl
        obtain rfl := Option.some.inj (hx.symm.trans hl.pending)
        exact hkeep.elim hroom (fun hnot => hnot hl)
      rw [insertPending_of_lowest hroom hl, Table.get?_insert_of_ne _ hne, Table.get?_erase,
        if_neg hother]
      exact hx

theorem getPending_insertPending_of_lowest (hroom : ¬ s.HasRoomFor P b)
    (hl : s.LowestUnprotected h x) : (s.insertPending P b).getPending h = none := by
  have hne : h ≠ b.hash P := by
    rintro rfl
    exact hroom (.inl ((Table.containsKey_iff _ _).mpr ⟨x, hl.pending⟩))
  unfold getPending
  rw [insertPending_of_lowest hroom hl, Table.get?_insert_of_ne _ hne, Table.get?_erase,
    if_pos rfl]

/-- The number of pending blocks grows if the block is new and nothing can be thrown out, or
nothing has to. -/
theorem size_insertPending : (s.insertPending P b).pendingBlocks.size =
    if s.pendingBlocks.containsKey (b.hash P) = true ∨
        ¬ s.HasRoomFor P b ∧ s.pendingVictim ≠ none then s.pendingBlocks.size
    else s.pendingBlocks.size + 1 := by
  cases hold : s.pendingBlocks.containsKey (b.hash P) with
  | true =>
    rw [insertPending_of_roomy (.inl (.inl hold)), if_pos (.inl rfl),
      Table.size_insert_of_mem hold]
  | false =>
    by_cases hroom : s.HasRoomFor P b
    · rw [insertPending_of_roomy (.inl hroom), if_neg (by simp [hroom]),
        Table.size_insert_of_new hold]
    · cases hv : s.pendingVictim with
      | none =>
        rw [insertPending_of_roomy (.inr hv), if_neg (by simp), Table.size_insert_of_new hold]
      | some victim =>
        obtain ⟨hash, x⟩ := victim
        have hl := pendingVictim_eq_some_iff.mp hv
        have hpresent : s.pendingBlocks.containsKey hash = true :=
          (Table.containsKey_iff _ _).mpr ⟨x, hl.pending⟩
        have hne : b.hash P ≠ hash := by
          rintro rfl
          rw [hpresent] at hold
          cases hold
        have hnew : Table.containsKey (s.pendingBlocks.erase hash) (b.hash P) = false := by
          rw [Table.containsKey_eq_false_iff, Table.get?_erase, if_neg hne]
          exact (Table.containsKey_eq_false_iff _ _).mp hold
        rw [insertPending_of_lowest hroom hl, if_pos (.inr ⟨hroom, by simp⟩),
          Table.size_insert_of_new hnew, Table.size_erase_of_mem hpresent]

theorem size_acceptProposal_le (P : Primitives) (s : HotStuffState) (p : Proposal) :
    (s.acceptProposal P p).1.pendingBlocks.size ≤
      (s.insertPending P p.block).pendingBlocks.size := by
  have hframe : (updateLock ((s.insertPending P p.block).castVote P p).1
      p.block.header.parentHash).1.pendingBlocks = (s.insertPending P p.block).pendingBlocks :=
    (updateLock_frame _ _).1.trans (castVote_frame P _ p).1
  rw [← hframe]
  unfold acceptProposal commitThreeChain
  simp only
  split
  · exact Nat.le_refl _
  · exact Table.size_retain_le _ _

/-! ### The protected window -/

theorem subset_protectAncestors {pending : Table BlockHash Block} (depth : ℕ)
    (cursor : BlockHash) (out : List BlockHash) :
    ∀ h ∈ out, h ∈ protectAncestors pending depth cursor out := by
  induction depth generalizing cursor out with
  | zero => exact fun _ hm => hm
  | succ depth ih =>
    intro h hm
    rw [protectAncestors]
    split_ifs
    · exact hm
    · cases pending.get? cursor with
      | none => exact List.mem_cons_of_mem _ hm
      | some y => exact ih _ _ h (List.mem_cons_of_mem _ hm)

/-- A set of hashes that has the known parents of all but genesis has all known ancestors. -/
theorem knownAncestor_mem_of_closed {out : List BlockHash}
    (hclosed : ∀ x ∈ out, x ≠ s.genesisHash → ∀ y, s.getPending x = some y →
      y.header.parentHash ∈ out) {k : ℕ} {cursor : BlockHash} (hm : cursor ∈ out)
    (ha : s.KnownAncestor k cursor h) : h ∈ out := by
  induction k generalizing cursor with
  | zero =>
    obtain rfl : h = cursor := ha
    exact hm
  | succ k ih =>
    obtain ⟨hne, y, hy, hrest⟩ := ha
    exact ih (hclosed cursor hm hne y hy) hrest

/-- The walk meets the known ancestors up to its depth: it stops where it has been before. -/
theorem knownAncestor_mem_protectAncestors {depth k : ℕ} {cursor : BlockHash}
    {out : List BlockHash} (hk : k < depth) (hgenesis : s.genesisHash ∈ out)
    (hclosed : ∀ x ∈ out, x ≠ s.genesisHash → ∀ y, s.getPending x = some y →
      y.header.parentHash ∈ out ∨ y.header.parentHash = cursor)
    (ha : s.KnownAncestor k cursor h) :
    h ∈ protectAncestors s.pendingBlocks depth cursor out := by
  induction depth generalizing k cursor out with
  | zero => omega
  | succ depth ih =>
    rw [protectAncestors]
    by_cases hm : cursor ∈ out
    · rw [if_pos hm]
      refine knownAncestor_mem_of_closed (fun x hx hne y hy => ?_) hm ha
      rcases hclosed x hx hne y hy with hin | heq
      · exact hin
      · exact heq ▸ hm
    · rw [if_neg hm]
      cases hb : s.pendingBlocks.get? cursor with
      | none =>
        cases k with
        | zero =>
          obtain rfl : h = cursor := ha
          exact List.mem_cons_self ..
        | succ k =>
          obtain ⟨-, y, hy, -⟩ := ha
          exact absurd (hy.symm.trans hb) (by simp)
      | some y =>
        cases k with
        | zero =>
          obtain rfl : h = cursor := ha
          exact subset_protectAncestors _ _ _ _ (List.mem_cons_self ..)
        | succ k =>
          obtain ⟨-, y', hy', hrest⟩ := ha
          obtain rfl : y' = y := Option.some.inj (hy'.symm.trans hb)
          refine ih (by omega) (List.mem_cons_of_mem _ hgenesis) ?_ hrest
          intro x hx hne z hz
          rcases List.mem_cons.mp hx with rfl | hx
          · obtain rfl := Option.some.inj (hz.symm.trans hy')
            exact .inr rfl
          · rcases hclosed x hx hne z hz with hin | heq
            · exact .inl (List.mem_cons_of_mem _ hin)
            · exact .inl (heq ▸ List.mem_cons_self ..)

theorem genesisHash_mem_protected (s : HotStuffState) :
    s.genesisHash ∈ s.protectedBlockHashes := by
  unfold protectedBlockHashes
  cases s.highQc with
  | none => exact List.mem_singleton_self _
  | some qc => exact subset_protectAncestors _ _ _ _ (List.mem_singleton_self _)

theorem mem_protected_of_knownAncestor {qc : QuorumCertificate} (hqc : s.highQc = some qc)
    {k : ℕ} (hk : k ≤ 3) (ha : s.KnownAncestor k qc.blockHash h) :
    h ∈ s.protectedBlockHashes := by
  have hdepth : k < protectedHighQcDepth := by
    have hfour : protectedHighQcDepth = 4 := rfl
    omega
  unfold protectedBlockHashes
  rw [hqc]
  refine knownAncestor_mem_protectAncestors hdepth (List.mem_singleton_self _) ?_ ha
  intro x hx hne
  exact absurd (List.mem_singleton.mp hx) hne

end HotStuffState

open HotStuffState

/-- A block that is inserted into the pending blocks of a state. -/
abbrev Insertion := HotStuffState × Block

namespace Insertion

/-- `insert_pending` keeps to the capacity if it can, and leaves the protected blocks, the block
itself and the locked block where they are. -/
structure KeepsWell (P : Primitives) (i : Insertion) : Prop where
  capacity : (i.1.insertPending P i.2).pendingBlocks.size ≤ i.1.pendingBlocksCapacity ∨
    ∀ h ∈ i.1.pendingBlocks.keys, h ≠ i.2.hash P → h ∈ i.1.protectedBlockHashes
  genesis : i.1.pendingBlocks.containsKey i.1.genesisHash = true →
    (i.1.insertPending P i.2).pendingBlocks.containsKey i.1.genesisHash = true
  highQc : ∀ qc ∈ i.1.highQc, ∀ k ≤ 3, ∀ h, i.1.KnownAncestor k qc.blockHash h →
    i.1.pendingBlocks.containsKey h = true →
      (i.1.insertPending P i.2).pendingBlocks.containsKey h = true
  inserted : (i.1.insertPending P i.2).getPending (i.2.hash P) = some i.2
  locked : ∀ l ∈ i.1.locked, i.1.pendingBlocks.containsKey l.blockHash = true →
    (i.1.insertPending P i.2).pendingBlocks.containsKey l.blockHash = true

/-- If there is no room, another block than the locked one is to go. -/
def LeavesLock (P : Primitives) (i : Insertion) : Prop :=
  ¬ i.1.HasRoomFor P i.2 → ∀ l ∈ i.1.locked, ∀ b, ¬ i.1.LowestUnprotected l.blockHash b

/-- Before the insertion there are no more pending blocks than the capacity, or the others are
all protected; and the locked block is not to go. -/
structure SparesLock (P : Primitives) (i : Insertion) : Prop where
  size : i.1.pendingBlocks.size ≤ i.1.pendingBlocksCapacity ∨
    ∀ h ∈ i.1.pendingBlocks.keys, h ≠ i.2.hash P → h ∈ i.1.protectedBlockHashes
  lock : i.LeavesLock P

/-- If there is no room, the block that is to go is not above the lock. -/
def SparesAbove (P : Primitives) (i : Insertion) : Prop :=
  ¬ i.1.HasRoomFor P i.2 → ∀ h b, i.1.LowestUnprotected h b → b.header.height ≤ i.1.lockedHeight

variable {P : Primitives} {i : Insertion}

instance : DecidablePred (SparesLock P) := fun i =>
  decidable_of_iff ((i.1.pendingBlocks.size ≤ i.1.pendingBlocksCapacity ∨
      ∀ h ∈ i.1.pendingBlocks.keys, h ≠ i.2.hash P → h ∈ i.1.protectedBlockHashes) ∧
      (¬ i.1.HasRoomFor P i.2 → ∀ l ∈ i.1.locked, ∀ victim ∈ i.1.pendingVictim,
        l.blockHash ≠ victim.1)) <| by
    constructor
    · rintro ⟨hsize, hlock⟩
      refine ⟨hsize, fun hroom l hl b hlowest => ?_⟩
      exact hlock hroom l hl (l.blockHash, b) (pendingVictim_eq_some_iff.mpr hlowest) rfl
    · rintro ⟨hsize, hlock⟩
      refine ⟨hsize, fun hroom l hl victim hvictim he => ?_⟩
      exact hlock hroom l hl victim.2 (he ▸ pendingVictim_eq_some_iff.mp hvictim)

theorem containsKey_of_kept {h : BlockHash} (hh : i.1.pendingBlocks.containsKey h = true)
    (hkeep : ∀ b, i.1.HasRoomFor P i.2 ∨ ¬ i.1.LowestUnprotected h b) :
    (i.1.insertPending P i.2).pendingBlocks.containsKey h = true := by
  obtain ⟨b, hb⟩ := (Table.containsKey_iff _ _).mp hh
  rw [Table.containsKey_iff]
  by_cases he : h = i.2.hash P
  · exact ⟨i.2, he ▸ getPending_insertPending_self P i.1 i.2⟩
  · exact ⟨b, getPending_insertPending_of_kept hb he (hkeep b)⟩

theorem size_insertPending_le_iff (hfree : ¬ ∀ h ∈ i.1.pendingBlocks.keys, h ≠ i.2.hash P →
    h ∈ i.1.protectedBlockHashes) :
    (i.1.insertPending P i.2).pendingBlocks.size ≤ i.1.pendingBlocksCapacity ↔
      i.1.pendingBlocks.size ≤ i.1.pendingBlocksCapacity := by
  rw [size_insertPending]
  split_ifs with hsame
  · rfl
  · obtain ⟨hnew, hnot⟩ := not_or.mp hsame
    have hvictim : i.1.pendingVictim ≠ none := by
      intro hnone
      exact hfree fun h hkey _ => pendingVictim_eq_none_iff.mp hnone h hkey
    have hroom : i.1.HasRoomFor P i.2 := by
      by_contra hroom
      exact hnot ⟨hroom, hvictim⟩
    have hspace := hroom.resolve_left hnew
    omega

theorem keepsWell_iff : i.KeepsWell P ↔ i.SparesLock P := by
  constructor
  · intro h
    constructor
    · by_cases hall : ∀ h ∈ i.1.pendingBlocks.keys, h ≠ i.2.hash P → h ∈ i.1.protectedBlockHashes
      · exact .inr hall
      · exact .inl ((size_insertPending_le_iff hall).mp (h.capacity.resolve_right hall))
    · intro hroom l hl b hlowest
      have hpresent : i.1.pendingBlocks.containsKey l.blockHash = true :=
        (Table.containsKey_iff _ _).mpr ⟨b, hlowest.pending⟩
      have hafter := h.locked l hl hpresent
      have hgone : (i.1.insertPending P i.2).pendingBlocks.containsKey l.blockHash = false :=
        (Table.containsKey_eq_false_iff _ _).mpr (getPending_insertPending_of_lowest hroom hlowest)
      rw [hgone] at hafter
      cases hafter
  · intro h
    have hprotected : ∀ x ∈ i.1.protectedBlockHashes, i.1.pendingBlocks.containsKey x = true →
        (i.1.insertPending P i.2).pendingBlocks.containsKey x = true := fun x hx hpresent =>
      containsKey_of_kept hpresent fun b => .inr fun hlowest => hlowest.unprotected hx
    constructor
    · by_cases hall : ∀ h ∈ i.1.pendingBlocks.keys, h ≠ i.2.hash P → h ∈ i.1.protectedBlockHashes
      · exact .inr hall
      · exact .inl ((size_insertPending_le_iff hall).mpr (h.size.resolve_right hall))
    · exact hprotected _ (genesisHash_mem_protected i.1)
    · intro qc hqc k hk x ha
      exact hprotected x (mem_protected_of_knownAncestor hqc hk ha)
    · exact getPending_insertPending_self P i.1 i.2
    · intro l hl hpresent
      refine containsKey_of_kept hpresent fun b => ?_
      by_cases hroom : i.1.HasRoomFor P i.2
      · exact .inl hroom
      · exact .inr (h.lock hroom l hl b)

end Insertion

end Boule
