import Boule.HotStuff.Calls
import Boule.HotStuff.Headers
import Mathlib.Data.List.Rotate

/-! Which peers the retries of a block request ask. -/
namespace Boule

theorem filterMap_range_getElem? {α : Type} (l : List α) :
    (List.range l.length).filterMap (fun i => l[i]?) = l := by
  induction l with
  | nil => rfl
  | cons a l ih =>
    rw [List.length_cons, List.range_succ_eq_map, List.filterMap_cons, List.filterMap_map]
    exact congrArg (a :: ·) ih

/-- Walking a list around from the place after `k`. -/
theorem filterMap_walk_eq_rotate {α : Type} (l : List α) (k : ℕ) :
    ((List.range l.length).filterMap fun offset => l[(k + (offset + 1)) % l.length]?) =
      l.rotate (k + 1) := by
  have hlen : (l.rotate (k + 1)).length = l.length := List.length_rotate l (k + 1)
  have hwalk : (List.range l.length).filterMap (fun offset => l[(k + (offset + 1)) % l.length]?) =
      (List.range l.length).filterMap fun offset => (l.rotate (k + 1))[offset]? := by
    refine List.filterMap_congr fun offset hoffset => ?_
    have hlt : offset < l.length := List.mem_range.mp hoffset
    have hplace : k + (offset + 1) = offset + (k + 1) := by omega
    rw [List.getElem?_rotate hlt, hplace]
  have hall := filterMap_range_getElem? (l.rotate (k + 1))
  rw [hlen] at hall
  exact hwalk.trans hall

/-- The members other than `selfId`, around the ring from the one after the sender; a sender that
is no member stands for the first one. -/
def syncRing (originalSender : NodeId) (set : ValidatorSet) (selfId : NodeId) : List NodeId :=
  (set.members.rotate ((set.indexOf originalSender).getD 0 + 1)).filter (· ≠ selfId)

def otherMembers (set : ValidatorSet) (selfId : NodeId) : List ValidatorId :=
  set.members.filter (· ≠ selfId)

section
variable (originalSender selfId : NodeId) (perPeerAttempts : ℕ) (set : ValidatorSet)

theorem syncRing_perm :
    (syncRing originalSender set selfId).Perm (otherMembers set selfId) :=
  (List.rotate_perm _ _).filter _

theorem length_syncRing :
    (syncRing originalSender set selfId).length = (otherMembers set selfId).length :=
  (syncRing_perm originalSender selfId set).length_eq

theorem mem_syncRing {m : NodeId} :
    m ∈ syncRing originalSender set selfId ↔ m ∈ set.members ∧ m ≠ selfId := by
  rw [(syncRing_perm originalSender selfId set).mem_iff, otherMembers, List.mem_filter,
    decide_eq_true_iff]

/-- The peer of a round: the sender in the first one, then one after the other around the ring. -/
def peerOfRound (round : ℕ) : NodeId :=
  if round = 0 then originalSender
  else
    let ring := syncRing originalSender set selfId
    ring.getD ((round - 1) % ring.length) originalSender

theorem pickBlockSyncPeer_eq (attempts : ℕ) :
    pickBlockSyncPeer originalSender attempts perPeerAttempts set selfId =
      peerOfRound originalSender selfId set
        ((saturatingAddU32 attempts 1 - 1) / max perPeerAttempts 1) := by
  unfold pickBlockSyncPeer peerOfRound
  simp only
  generalize (saturatingAddU32 attempts 1 - 1) / max perPeerAttempts 1 = round
  split_ifs with hround hlen
  · rfl
  · have hempty : syncRing originalSender set selfId = [] := by
      have hmembers : set.members = [] := List.eq_nil_of_length_eq_zero hlen
      unfold syncRing
      rw [hmembers]
      rfl
    rw [hempty]
    rfl
  · have hring := filterMap_walk_eq_rotate set.members ((set.indexOf originalSender).getD 0)
    unfold syncRing ValidatorSet.get? ValidatorSet.len
    rw [hring]

/-- Below the largest counter the rounds are those of the attempts. -/
theorem pickBlockSyncPeer_of_lt {attempts : ℕ} (h : attempts < 2 ^ 32 - 1) :
    pickBlockSyncPeer originalSender attempts perPeerAttempts set selfId =
      peerOfRound originalSender selfId set (attempts / max perPeerAttempts 1) := by
  have hnext : saturatingAddU32 attempts 1 - 1 = attempts := by
    unfold saturatingAddU32
    omega
  rw [pickBlockSyncPeer_eq, hnext]

theorem peerOfRound_eq_self {round : ℕ}
    (h : peerOfRound originalSender selfId set round = selfId) : originalSender = selfId := by
  unfold peerOfRound at h
  split_ifs at h with hround
  · exact h
  · simp only [List.getD_eq_getElem?_getD] at h
    generalize (round - 1) % (syncRing originalSender set selfId).length = place at h
    cases hget : (syncRing originalSender set selfId)[place]? with
    | none =>
      rw [hget] at h
      exact h
    | some peer =>
      rw [hget] at h
      have hmem : peer ∈ syncRing originalSender set selfId := List.mem_of_getElem? hget
      exact absurd h ((mem_syncRing originalSender selfId set).mp hmem).2

theorem exists_round_of_mem {m : NodeId} (hm : m ∈ set.members) (hne : m ≠ selfId) :
    ∃ round ≤ (otherMembers set selfId).length, 0 < round ∧
      peerOfRound originalSender selfId set round = m := by
  have hmem : m ∈ syncRing originalSender set selfId :=
    (mem_syncRing originalSender selfId set).mpr ⟨hm, hne⟩
  obtain ⟨i, hi, hget⟩ := List.getElem_of_mem hmem
  have hlen := length_syncRing originalSender selfId set
  refine ⟨i + 1, by omega, by omega, ?_⟩
  unfold peerOfRound
  simp only [Nat.add_sub_cancel, if_neg (Nat.succ_ne_zero i), Nat.mod_eq_of_lt hi]
  rw [List.getD_eq_getElem _ _ hi, hget]

/-- The sender is asked first; then the members around the ring, each for as many attempts, until
the counter is at its largest value. Every other member has its turn unless the counter gets there
before, and the replica asks itself only if it is the sender. -/
theorem pickBlockSyncPeer_visits :
    (∀ attempts < max perPeerAttempts 1,
      pickBlockSyncPeer originalSender attempts perPeerAttempts set selfId = originalSender) ∧
    (∀ attempts < 2 ^ 32 - 1, max perPeerAttempts 1 ≤ attempts →
      pickBlockSyncPeer originalSender attempts perPeerAttempts set selfId =
        (syncRing originalSender set selfId).getD
          ((attempts / max perPeerAttempts 1 - 1) % (otherMembers set selfId).length)
          originalSender) ∧
    (∀ m ∈ set.members, m ≠ selfId →
      max perPeerAttempts 1 * (otherMembers set selfId).length < 2 ^ 32 - 1 →
      ∃ attempts < max perPeerAttempts 1 * ((otherMembers set selfId).length + 1),
        pickBlockSyncPeer originalSender attempts perPeerAttempts set selfId = m) ∧
    ∀ attempts, pickBlockSyncPeer originalSender attempts perPeerAttempts set selfId = selfId →
      originalSender = selfId := by
  have hpos : 0 < max perPeerAttempts 1 := by omega
  refine ⟨?_, ?_, ?_, ?_⟩
  · intro attempts hlt
    have hfirst : (saturatingAddU32 attempts 1 - 1) / max perPeerAttempts 1 = 0 := by
      refine Nat.div_eq_of_lt ?_
      unfold saturatingAddU32
      omega
    rw [pickBlockSyncPeer_eq, hfirst]
    rfl
  · intro attempts hlt hlate
    have hround : attempts / max perPeerAttempts 1 ≠ 0 :=
      Nat.ne_of_gt (Nat.div_pos hlate hpos)
    rw [pickBlockSyncPeer_of_lt _ _ _ _ hlt, ← length_syncRing originalSender]
    exact if_neg hround
  · intro m hm hne hturn
    obtain ⟨round, hle, -, hround⟩ := exists_round_of_mem originalSender selfId set hm hne
    have hattempts : max perPeerAttempts 1 * round ≤
        max perPeerAttempts 1 * (otherMembers set selfId).length := Nat.mul_le_mul_left _ hle
    refine ⟨max perPeerAttempts 1 * round, ?_, ?_⟩
    · rw [Nat.mul_succ]
      omega
    · rw [pickBlockSyncPeer_of_lt _ _ _ _ (by omega), Nat.mul_div_cancel_left _ hpos, hround]
  · intro attempts hself
    rw [pickBlockSyncPeer_eq] at hself
    exact peerOfRound_eq_self _ _ _ hself

end

namespace HotStuffCore

/-- What a retry tick does for a block that may still be asked for. -/
theorem runBlockSyncRetryTickForParent_of_lt {c : HotStuffCore} {parentHash : BlockHash}
    {entry : BlockSyncInflight} (h : c.blockSyncInflight.get? parentHash = some entry)
    (hlt : entry.attempts < c.limits.blockSyncMaxAttempts) :
    c.runBlockSyncRetryTickForParent parentHash =
      c.askAgain parentHash entry .retryTimerTick := by
  unfold runBlockSyncRetryTickForParent
  simp only [h, if_neg (Nat.not_le.mpr hlt)]

/-- The requests of ticks in a row follow the attempts. -/
theorem requests_of_ticks {c : HotStuffCore} {parentHash : BlockHash} {entry : BlockSyncInflight}
    (h : c.blockSyncInflight.get? parentHash = some entry) {ticks : ℕ}
    (hmax : entry.attempts + ticks ≤ c.limits.blockSyncMaxAttempts)
    (hlimit : c.limits.blockSyncMaxAttempts < 2 ^ 32) :
    (forHashes runBlockSyncRetryTickForParent c (List.replicate ticks parentHash)).2 =
      (List.range' entry.attempts ticks).map fun attempts =>
        .requestBlock parentHash (pickBlockSyncPeer entry.originalSender attempts
          c.limits.blockSyncPerPeerAttempts c.state.validatorSet c.selfId)
          entry.expectedHeight .retryTimerTick := by
  induction ticks generalizing c entry with
  | zero => rfl
  | succ ticks ih =>
    have hnext : saturatingAddU32 entry.attempts 1 = entry.attempts + 1 := by
      unfold saturatingAddU32
      omega
    have hasked := runBlockSyncRetryTickForParent_of_lt h (by omega)
    have hentry : (c.askAgain parentHash entry .retryTimerTick).1.blockSyncInflight.get?
        parentHash = some { entry with
          attempts := entry.attempts + 1, lastAskedView := c.state.currentView } := by
      rw [askAgain, hnext]
      exact Table.get?_insert_self ..
    have hrest := ih hentry (by
      show entry.attempts + 1 + ticks ≤ c.limits.blockSyncMaxAttempts
      omega) hlimit
    rw [List.replicate_succ, forHashes, hasked, List.range'_succ, List.map_cons]
    exact congrArg (_ :: ·) hrest

/-- A block that is asked for and then retried at every tick is asked of every other member, if
the limit leaves each its turn. -/
theorem requests_reach {c : HotStuffCore} {parentHash : BlockHash} (sender : NodeId) (height : ℕ)
    (reason : BlockSyncReason) (h : c.blockSyncInflight.get? parentHash = none)
    (hmax : max c.limits.blockSyncPerPeerAttempts 1 *
      (otherMembers c.state.validatorSet c.selfId).length < c.limits.blockSyncMaxAttempts)
    (hlimit : c.limits.blockSyncMaxAttempts < 2 ^ 32) {m : NodeId}
    (hm : m ∈ c.state.validatorSet.members) (hne : m ≠ c.selfId) :
    .requestBlock parentHash m height .retryTimerTick ∈
      (forHashes runBlockSyncRetryTickForParent
        (c.tryEmitBlockSyncRetry parentHash sender height reason).1
        (List.replicate (c.limits.blockSyncMaxAttempts - 1) parentHash)).2 := by
  have hframe := (quiet_tryEmitBlockSyncRetry c parentHash sender height reason).1
  have hentry : (c.tryEmitBlockSyncRetry parentHash sender height reason).1.blockSyncInflight.get?
      parentHash = some ⟨sender, 1, c.state.currentView, height⟩ := by
    unfold tryEmitBlockSyncRetry
    simp only [h]
    exact Table.get?_insert_self ..
  obtain ⟨round, hle, hpos, hround⟩ :=
    exists_round_of_mem sender c.selfId c.state.validatorSet hm hne
  have hattempts : max c.limits.blockSyncPerPeerAttempts 1 * round ≤
      max c.limits.blockSyncPerPeerAttempts 1 *
        (otherMembers c.state.validatorSet c.selfId).length := Nat.mul_le_mul_left _ hle
  have hsome : 0 < max c.limits.blockSyncPerPeerAttempts 1 * round :=
    Nat.mul_pos (by omega) hpos
  have hall : 1 + (c.limits.blockSyncMaxAttempts - 1) ≤
      (c.tryEmitBlockSyncRetry parentHash sender height reason).1.limits.blockSyncMaxAttempts := by
    rw [hframe.limits]
    omega
  rw [requests_of_ticks hentry hall (by rwa [hframe.limits]), hframe.limits, hframe.state,
    hframe.selfId]
  refine List.mem_map.mpr ⟨max c.limits.blockSyncPerPeerAttempts 1 * round, ?_, ?_⟩
  · rw [List.mem_range'_1]
    show 1 ≤ _ ∧ _ < 1 + (c.limits.blockSyncMaxAttempts - 1)
    omega
  · rw [pickBlockSyncPeer_of_lt _ _ _ _ (by omega), Nat.mul_div_cancel_left _ (by omega), hround]

end HotStuffCore

namespace Sample

/-- At its largest value the counter asks the peer of the attempt before, not the next one. -/
theorem last_turn_repeated :
    syncRing 2 validators 1 = [3, 4, 2] ∧
    pickBlockSyncPeer 2 (2 ^ 32 - 3) 1 validators 1 = 3 ∧
    pickBlockSyncPeer 2 (2 ^ 32 - 2) 1 validators 1 = 4 ∧
    pickBlockSyncPeer 2 (2 ^ 32 - 1) 1 validators 1 = 4 := by
  decide

end Sample

end Boule
