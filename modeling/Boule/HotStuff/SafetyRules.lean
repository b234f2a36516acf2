import Boule.HotStuff.State
import Mathlib.Logic.Relation

/-! The voting rule, the update of the high certificate and the three-chain commit rule. -/
namespace Boule

/-- The loop of `extends`. The visited hashes are keys of `pending`, so the size of the map
bounds the number of rounds. -/
def extendsLoop (pending : Table BlockHash Block) (ancestorHash : BlockHash) :
    ℕ → List BlockHash → BlockHash → Bool
  | 0, _, _ => false
  | fuel + 1, seen, current =>
    if current ∈ seen then false
    else
      match pending.get? current with
      | none => false
      | some block =>
        let parent := block.header.parentHash
        if parent = ancestorHash then true
        else if parent = 0 then false
        else extendsLoop pending ancestorHash fuel (current :: seen) parent

def extendsAncestor (blockHash ancestorHash : BlockHash) (pending : Table BlockHash Block) : Bool :=
  if blockHash = ancestorHash then true
  else extendsLoop pending ancestorHash (pending.size + 1) [] blockHash

def safeToVote (P : Primitives) (proposal : Proposal) (state : HotStuffState) : Bool :=
  if proposal.block.header.view ≤ state.lastVotedView then false
  else
    match state.locked with
    | none => true
    | some locked =>
      if extendsAncestor (proposal.block.hash P) locked.blockHash state.pendingBlocks then true
      else locked.view < proposal.justify.view

def shouldUpdateHighQc (qc : QuorumCertificate) (state : HotStuffState) : Bool :=
  match state.highQc with
  | none => true
  | some existing => existing.view < qc.view

def threeChainCommit (newQc : QuorumCertificate) (state : HotStuffState) : Option Block := do
  let b3 ← state.pendingBlocks.get? newQc.blockHash
  if b3.header.view ≠ newQc.view then none
  let b2 ← state.pendingBlocks.get? b3.header.parentHash
  if addU64 b2.header.view 1 ≠ b3.header.view then none
  let b1 ← state.pendingBlocks.get? b2.header.parentHash
  if addU64 b1.header.view 1 ≠ b2.header.view then none
  return b1

/-- `h` is pending and names `h'` as its parent. -/
def ParentIn (pending : Table BlockHash Block) (h h' : BlockHash) : Prop :=
  ∃ b, pending.get? h = some b ∧ b.header.parentHash = h'

/-- More fuel does not change the answer. -/
theorem extendsLoop_succ {pending : Table BlockHash Block} {anc : BlockHash} (fuel : ℕ)
    (seen : List BlockHash) (current : BlockHash) (hn : seen.Nodup)
    (hs : ∀ h ∈ seen, h ∈ pending.keys) (hf : pending.size < fuel + seen.length) :
    extendsLoop pending anc fuel seen current =
      extendsLoop pending anc (fuel + 1) seen current := by
  induction fuel generalizing seen current with
  | zero =>
    have hle : seen.length ≤ pending.keys.length := (hn.subperm hs).length_le
    have hk : pending.keys.length = pending.size := List.length_map _
    omega
  | succ fuel ih =>
    rw [extendsLoop, extendsLoop]
    split_ifs with hc
    · rfl
    · cases hb : pending.get? current with
      | none => rfl
      | some b =>
        have hmem : current ∈ pending.keys :=
          List.mem_map_of_mem ((Table.get?_eq_some_iff _ _ _).mp hb)
        simp only
        rw [ih (current :: seen) b.header.parentHash (List.nodup_cons.mpr ⟨hc, hn⟩)
          (List.forall_mem_cons.mpr ⟨hmem, hs⟩) (by rw [List.length_cons]; omega)]

theorem reflTransGen_of_extendsLoop {pending : Table BlockHash Block} {anc : BlockHash} {fuel : ℕ}
    {seen : List BlockHash} {current : BlockHash}
    (h : extendsLoop pending anc fuel seen current = true) :
    Relation.ReflTransGen (ParentIn pending) current anc := by
  induction fuel generalizing seen current with
  | zero => exact absurd h Bool.false_ne_true
  | succ fuel ih =>
    rw [extendsLoop] at h
    split_ifs at h
    cases hb : pending.get? current with
    | none => simp [hb] at h
    | some b =>
      simp only [hb] at h
      have hp : ParentIn pending current b.header.parentHash := ⟨b, hb, rfl⟩
      split_ifs at h with ha
      · exact ha ▸ .single hp
      · exact .head hp (ih h)

/-- A positive answer comes with a path of pending blocks. -/
theorem reflTransGen_of_extends {pending : Table BlockHash Block} {h anc : BlockHash}
    (he : extendsAncestor h anc pending = true) :
    Relation.ReflTransGen (ParentIn pending) h anc := by
  unfold extendsAncestor at he
  split_ifs at he with heq
  · exact heq ▸ .refl
  · exact reflTransGen_of_extendsLoop he

theorem lastVotedView_lt_of_safeToVote {P : Primitives} {p : Proposal} {s : HotStuffState}
    (h : safeToVote P p s = true) : s.lastVotedView < p.block.header.view := by
  unfold safeToVote at h
  split_ifs at h with hv
  omega

/-- A vote is cast with no lock, above the lock, or for an extension of the locked block. -/
theorem lock_of_safeToVote {P : Primitives} {p : Proposal} {s : HotStuffState} {l : Locked}
    (h : safeToVote P p s = true) (hl : s.locked = some l) :
    Relation.ReflTransGen (ParentIn s.pendingBlocks) (p.block.hash P) l.blockHash ∨
      l.view < p.justify.view := by
  unfold safeToVote at h
  rw [hl] at h
  simp only at h
  split_ifs at h with _ he
  · exact .inl (reflTransGen_of_extends he)
  · exact .inr (of_decide_eq_true h)

/-- What the commit rule found in the pending blocks. -/
structure ThreeChain (s : HotStuffState) (qc : QuorumCertificate) (b1 b2 b3 : Block) : Prop where
  get_b3 : s.getPending qc.blockHash = some b3
  get_b2 : s.getPending b3.header.parentHash = some b2
  get_b1 : s.getPending b2.header.parentHash = some b1
  view_b3 : b3.header.view = qc.view
  next_b3 : addU64 b2.header.view 1 = b3.header.view
  next_b2 : addU64 b1.header.view 1 = b2.header.view

theorem threeChain_of_threeChainCommit {s : HotStuffState} {qc : QuorumCertificate} {b1 : Block}
    (h : threeChainCommit qc s = some b1) : ∃ b2 b3, ThreeChain s qc b1 b2 b3 := by
  simp only [threeChainCommit, Option.bind_eq_bind] at h
  obtain ⟨b3, h3, h⟩ := Option.bind_eq_some_iff.mp h
  by_cases hv3 : b3.header.view = qc.view
  · rw [if_neg (not_not.mpr hv3)] at h
    obtain ⟨b2, h2, h⟩ := Option.bind_eq_some_iff.mp h
    by_cases hv2 : addU64 b2.header.view 1 = b3.header.view
    · rw [if_neg (not_not.mpr hv2)] at h
      obtain ⟨b1', h1, h⟩ := Option.bind_eq_some_iff.mp h
      by_cases hv1 : addU64 b1'.header.view 1 = b2.header.view
      · rw [if_neg (not_not.mpr hv1)] at h
        obtain rfl : b1' = b1 := Option.some.inj h
        exact ⟨b2, b3, h3, h2, h1, hv3, hv2, hv1⟩
      · rw [if_pos hv1] at h
        exact absurd h (by simp)
    · rw [if_pos hv2] at h
      exact absurd h (by simp)
  · rw [if_pos hv3] at h
    exact absurd h (by simp)

end Boule
