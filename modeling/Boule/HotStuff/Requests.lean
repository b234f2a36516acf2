import Boule.HotStuff.Records
import Boule.HotStuff.SyncMoves

/-! How often a block is asked for. -/
namespace Boule

def Action.requests (h : BlockHash) : Action → Bool
  | .requestBlock hash _ _ _ => hash = h
  | _ => false

/-- The number of requests for a block. -/
def requestsFor (h : BlockHash) (actions : List Action) : ℕ := actions.countP (Action.requests h)

theorem requestsFor_eq_zero {h : BlockHash} {actions : List Action}
    (hnone : ∀ a ∈ actions, Action.requests h a = false) : requestsFor h actions = 0 :=
  List.countP_eq_zero.mpr fun a ha => by simp [hnone a ha]

/-- What a move does to the entry of a block, with the requests for the block that it emits: at
most one, which opens an entry or is counted in it. -/
inductive EntryMoves (maxAttempts : ℕ) :
    Option BlockSyncInflight → Option BlockSyncInflight → ℕ → Prop
  | stays (entry : Option BlockSyncInflight) : EntryMoves maxAttempts entry entry 0
  | goes (entry : Option BlockSyncInflight) : EntryMoves maxAttempts entry none 0
  | opens {entry : BlockSyncInflight} (first : entry.attempts = 1) :
    EntryMoves maxAttempts none (some entry) 1
  | counts {entry entry' : BlockSyncInflight} (below : entry.attempts < maxAttempts)
    (next : entry'.attempts = saturatingAddU32 entry.attempts 1) :
    EntryMoves maxAttempts (some entry) (some entry') 1

/-- `n` requests are counted in an entry: those that an open entry has made, within the limit. -/
def Counted (maxAttempts : ℕ) : Option BlockSyncInflight → ℕ → Prop
  | none, n => n = 0
  | some entry, n => entry.attempts = n ∧ 1 ≤ n ∧ n ≤ maxAttempts

theorem Counted.le {maxAttempts n : ℕ} {entry : Option BlockSyncInflight}
    (h : Counted maxAttempts entry n) : n ≤ maxAttempts := by
  cases entry with
  | none => exact h ▸ Nat.zero_le _
  | some entry => exact h.2.2

theorem EntryMoves.counted {maxAttempts n requests : ℕ} {before after : Option BlockSyncInflight}
    (hm : EntryMoves maxAttempts before after requests) (hmin : 1 ≤ maxAttempts)
    (hmax : maxAttempts < 2 ^ 32) (h : Counted maxAttempts before n) :
    Counted maxAttempts after (if after.isSome then n + requests else 0) := by
  cases hm with
  | stays =>
    cases before with
    | none => rfl
    | some entry => exact h
  | goes => rfl
  | opens first =>
    obtain rfl : n = 0 := h
    exact ⟨first, Nat.le_refl 1, hmin⟩
  | counts below next =>
    obtain ⟨hattempts, -, -⟩ := h
    have hnext : saturatingAddU32 n 1 = n + 1 := by
      unfold saturatingAddU32
      omega
    have hle : n + 1 ≤ maxAttempts := by omega
    rw [hattempts, hnext] at next
    exact ⟨next, Nat.le_add_left 1 n, hle⟩

namespace HotStuffCore

/-- The entry of every block moves as it may, from `c` to the core of `r`. -/
def Asks (c : HotStuffCore) (r : HotStuffCore × List Action) : Prop :=
  ∀ h, EntryMoves c.limits.blockSyncMaxAttempts (c.blockSyncInflight.get? h)
    (r.1.blockSyncInflight.get? h) (requestsFor h r.2)

variable {P : Primitives} {c : HotStuffCore}

theorem asks_of_same {r : HotStuffCore × List Action}
    (hsame : r.1.blockSyncInflight = c.blockSyncInflight)
    (hnone : ∀ h, ∀ a ∈ r.2, Action.requests h a = false) : c.Asks r := by
  intro h
  rw [hsame, requestsFor_eq_zero (hnone h)]
  exact .stays _

theorem asks_of_erase {r : HotStuffCore × List Action} {hash : BlockHash}
    (herase : r.1.blockSyncInflight = c.blockSyncInflight.erase hash)
    (hnone : ∀ h, ∀ a ∈ r.2, Action.requests h a = false) : c.Asks r := by
  intro h
  rw [herase, requestsFor_eq_zero (hnone h), Table.get?_erase]
  split_ifs
  · exact .goes _
  · exact .stays _

/-- A request for a block, whose entry is written with it. -/
theorem asks_of_insert {r : HotStuffCore × List Action} {hash : BlockHash}
    {entry : BlockSyncInflight} {peer : NodeId} {height : ℕ} {reason : BlockSyncReason}
    (hinsert : r.1.blockSyncInflight = c.blockSyncInflight.insert hash entry)
    (hactions : r.2 = [.requestBlock hash peer height reason])
    (hentry : EntryMoves c.limits.blockSyncMaxAttempts (c.blockSyncInflight.get? hash)
      (some entry) 1) : c.Asks r := by
  intro h
  rw [hinsert, hactions, Table.get?_insert]
  by_cases he : h = hash
  · subst he
    have hone : requestsFor h [Action.requestBlock h peer height reason] = 1 := by
      simp [requestsFor, Action.requests]
    rw [if_pos rfl, hone]
    exact hentry
  · have hzero : requestsFor h [Action.requestBlock hash peer height reason] = 0 := by
      simp [requestsFor, Action.requests, Ne.symm he]
    rw [if_neg he, hzero]
    exact .stays _

theorem asks_askAgain {hash : BlockHash} {entry : BlockSyncInflight}
    (h : c.blockSyncInflight.get? hash = some entry)
    (hlt : entry.attempts < c.limits.blockSyncMaxAttempts) (reason : BlockSyncReason) :
    c.Asks (c.askAgain hash entry reason) := by
  refine asks_of_insert rfl rfl ?_
  rw [h]
  exact .counts hlt rfl

theorem asks_tryEmitBlockSyncRetry (c : HotStuffCore) (hash : BlockHash) (sender : NodeId)
    (height : ℕ) (reason : BlockSyncReason) :
    c.Asks (c.tryEmitBlockSyncRetry hash sender height reason) := by
  unfold tryEmitBlockSyncRetry
  cases hget : c.blockSyncInflight.get? hash with
  | none =>
    refine asks_of_insert rfl rfl ?_
    rw [hget]
    exact .opens rfl
  | some entry =>
    simp only
    split_ifs with hmax hback
    · exact asks_of_same rfl (by simp)
    · exact asks_of_same rfl (by simp)
    · exact asks_askAgain hget (Nat.not_le.mp hmax) reason

theorem asks_runBlockSyncRetryTickForParent (c : HotStuffCore) (hash : BlockHash) :
    c.Asks (c.runBlockSyncRetryTickForParent hash) := by
  unfold runBlockSyncRetryTickForParent
  cases hget : c.blockSyncInflight.get? hash with
  | none => exact asks_of_same rfl (by simp)
  | some entry =>
    simp only
    split_ifs with hmax
    · exact asks_of_erase rfl (by simp)
    · exact asks_askAgain hget (Nat.not_le.mp hmax) _

theorem asks_runBlockSyncRetryForParent (c : HotStuffCore) (hash : BlockHash) :
    c.Asks (c.runBlockSyncRetryForParent hash) := by
  unfold runBlockSyncRetryForParent
  cases hget : c.blockSyncInflight.get? hash with
  | none => exact asks_of_same rfl (by simp)
  | some entry =>
    simp only
    split_ifs with hmax
    · exact asks_of_erase rfl (by simp)
    · exact asks_tryEmitBlockSyncRetry c hash _ _ _

/-! ### Votes -/

/-- The certificate that a vote completes and that becomes the high one. -/
def formedBy (P : Primitives) (c : HotStuffCore) (variant : VoteVariant) :
    Option QuorumCertificate :=
  (c.recordVote P variant).2.2.filter fun qc => shouldUpdateHighQc qc c.state

/-- A vote may raise the high certificate, and changes nothing else but the caches of votes. -/
theorem onVoteReceived_eq (P : Primitives) (c : HotStuffCore) (variant : VoteVariant) :
    ∃ bucket dedupe, (c.onVoteReceived P variant).1 = { c with
      voteBucket := bucket
      voteDedupe := dedupe
      state := { c.state with highQc := (c.formedBy P variant).or c.state.highQc } } := by
  obtain ⟨bucket, dedupe, hrecord⟩ := recordVote_eq P c variant
  refine ⟨bucket, dedupe, ?_⟩
  unfold onVoteReceived formedBy
  rcases hr : c.recordVote P variant with ⟨c', actions, formed⟩
  rw [hr] at hrecord
  simp only at hrecord
  subst hrecord
  cases formed with
  | none => rfl
  | some qc =>
    simp only [adoptFormed, Option.filter_some]
    by_cases hup : shouldUpdateHighQc qc c.state = true
    · rw [if_pos hup, if_pos hup]
      rfl
    · rw [if_neg hup, if_neg hup]
      rfl

theorem requests_tryProposeAsLeader (c : HotStuffCore) (view : ℕ) (h : BlockHash) :
    ∀ a ∈ c.tryProposeAsLeader view, Action.requests h a = false := by
  intro a ha
  obtain ⟨highQc, parent, rfl⟩ := mem_tryProposeAsLeader ha
  rfl

theorem requests_recordVote (P : Primitives) (c : HotStuffCore) (variant : VoteVariant)
    (h : BlockHash) : ∀ a ∈ (c.recordVote P variant).2.1, Action.requests h a = false := by
  intro a ha
  obtain ⟨voter, view, blockA, blockB, rfl⟩ := mem_recordVote ha
  rfl

theorem requests_onVoteReceived (P : Primitives) (c : HotStuffCore) (variant : VoteVariant)
    (h : BlockHash) : ∀ a ∈ (c.onVoteReceived P variant).2, Action.requests h a = false := by
  have hrecord := requests_recordVote P c variant h
  unfold onVoteReceived
  rcases hr : c.recordVote P variant with ⟨c', actions, formed⟩
  rw [hr] at hrecord
  cases formed with
  | none => exact hrecord
  | some qc =>
    intro a ha
    rcases List.mem_append.mp ha with ha | ha
    · rcases List.mem_append.mp ha with ha | ha
      · exact hrecord a ha
      · unfold adoptFormed at ha
        split_ifs at ha
        · rw [List.mem_singleton.mp ha]
          rfl
        · cases ha
    · exact requests_tryProposeAsLeader _ _ h a ha

/-! ### Proposals -/

theorem requests_acceptProposal (P : Primitives) (s : HotStuffState) (p : Proposal)
    (h : BlockHash) : ∀ a ∈ (s.acceptProposal P p).2, Action.requests h a = false := by
  intro a ha
  rcases s.kind_of_mem_acceptProposal P p ha with ⟨u, rfl⟩ | ⟨v, rfl⟩ | ⟨b, rfl⟩ <;> rfl

theorem asks_onProposalReceived (P : Primitives) (c : HotStuffCore) (signed : Signed Proposal) :
    c.Asks (c.onProposalReceived P signed) := by
  cases hp : c.state.pendingBlocks.containsKey signed.payload.block.header.parentHash with
  | false =>
    obtain ⟨parked, hparked⟩ := insertParked_eq P c signed
    have hasks := asks_tryEmitBlockSyncRetry (c.insertParked P signed)
      signed.payload.block.header.parentHash signed.signer
      (signed.payload.block.header.height - 1) .unknownParentOnProposal
    rw [onProposalReceived_of_unknown hp]
    unfold parkProposal
    rw [hparked] at hasks ⊢
    exact hasks
  | true =>
    rw [onProposalReceived_of_known hp]
    exact asks_of_erase rfl (requests_acceptProposal P c.state signed.payload)

theorem asks_onNewViewReceived (c : HotStuffCore) (signed : Signed NewView) :
    c.Asks (c.onNewViewReceived signed) := by
  unfold onNewViewReceived
  simp only
  split_ifs
  · exact asks_of_same rfl (by simp)
  · exact asks_of_same rfl (by simp [Action.requests])
  · have hasks := asks_tryEmitBlockSyncRetry (c.setHighQc signed.payload.highQc)
      signed.payload.highQc.blockHash signed.signer 0 .unknownHighQcOnNewView
    intro h
    have hone := hasks h
    have hskip : requestsFor h (.persist (.highQc signed.payload.highQc) ::
        ((c.setHighQc signed.payload.highQc).tryEmitBlockSyncRetry
          signed.payload.highQc.blockHash signed.signer 0 .unknownHighQcOnNewView).2) =
        requestsFor h ((c.setHighQc signed.payload.highQc).tryEmitBlockSyncRetry
          signed.payload.highQc.blockHash signed.signer 0 .unknownHighQcOnNewView).2 := by
      simp [requestsFor, Action.requests]
    rw [hskip]
    exact hone

/-- Every move does to the entry of a block what it may. -/
theorem asks_move (P : Primitives) (c : HotStuffCore) (m : SyncMove) : c.Asks (c.move P m) := by
  cases m with
  | checkDedupe view leader blockHash =>
    simp only [move]
    unfold checkProposalDedupe
    split
    · exact asks_of_same rfl (by simp)
    · split_ifs
      · exact asks_of_same rfl (by simp)
      · exact asks_of_same rfl (by simp [Action.requests])
  | enterView view => exact asks_of_same rfl (by simp [move])
  | release childHash parentHash => exact asks_of_erase rfl (by simp [move])
  | receive signed rest => exact asks_onProposalReceived P c signed
  | vote variant =>
    obtain ⟨bucket, dedupe, heq⟩ := onVoteReceived_eq P c variant
    refine asks_of_same ?_ (requests_onVoteReceived P c variant)
    rw [move, heq]
  | newView signed => exact asks_onNewViewReceived c signed
  | retry parentHash => exact asks_runBlockSyncRetryForParent c parentHash
  | tick parentHash => exact asks_runBlockSyncRetryTickForParent c parentHash
  | announce view =>
    refine asks_of_same rfl fun h a ha => ?_
    rcases List.mem_append.mp ha with ha | ha
    · unfold newViewActions at ha
      rw [Option.mem_toList] at ha
      obtain ⟨qc, -, rfl⟩ := Option.map_eq_some_iff.mp ha
      rfl
    · exact requests_tryProposeAsLeader c view h a ha
  | insert block => exact asks_of_erase rfl (by simp [move])

theorem limits_move (P : Primitives) (c : HotStuffCore) (m : SyncMove) :
    (c.move P m).1.limits = c.limits := by
  cases m with
  | checkDedupe view leader blockHash => exact (quiet_checkProposalDedupe c _ _ _).1.limits
  | enterView view => rfl
  | release childHash parentHash => rfl
  | receive signed rest =>
    simp only [move]
    cases hp : c.state.pendingBlocks.containsKey signed.payload.block.header.parentHash with
    | false =>
      obtain ⟨parked, hparked⟩ := insertParked_eq P c signed
      rw [onProposalReceived_of_unknown hp, parkProposal, hparked]
      exact (quiet_tryEmitBlockSyncRetry _ _ _ _ _).1.limits
    | true => rw [onProposalReceived_of_known hp]
  | vote variant =>
    obtain ⟨bucket, dedupe, heq⟩ := onVoteReceived_eq P c variant
    rw [move, heq]
  | newView signed =>
    simp only [move]
    unfold onNewViewReceived
    simp only
    split_ifs
    · rfl
    · rfl
    · exact (quiet_tryEmitBlockSyncRetry (c.setHighQc signed.payload.highQc) _ _ _ _).1.limits
  | retry parentHash => exact (quiet_runBlockSyncRetryForParent c parentHash).1.limits
  | tick parentHash => exact (quiet_runBlockSyncRetryTickForParent c parentHash).1.limits
  | announce view => rfl
  | insert block => rfl

/-! ### Lifetimes -/

/-- A core together with the number of requests for `h` since the entry of `h` was opened. -/
def watch (P : Primitives) (h : BlockHash) (w : HotStuffCore × ℕ) (m : SyncMove) :
    HotStuffCore × ℕ :=
  let r := w.1.move P m
  (r.1, if r.1.blockSyncInflight.containsKey h then w.2 + requestsFor h r.2 else 0)

variable {h : BlockHash} {w : HotStuffCore × ℕ}

theorem counted_watch (hmin : 1 ≤ w.1.limits.blockSyncMaxAttempts)
    (hmax : w.1.limits.blockSyncMaxAttempts < 2 ^ 32)
    (hw : Counted w.1.limits.blockSyncMaxAttempts (w.1.blockSyncInflight.get? h) w.2)
    (m : SyncMove) :
    Counted w.1.limits.blockSyncMaxAttempts ((watch P h w m).1.blockSyncInflight.get? h)
      (watch P h w m).2 := (asks_move P w.1 m h).counted hmin hmax hw

/-- In every run an entry's attempts are the requests since it was opened, and they keep within
the limit. -/
theorem counted_run (hempty : c.blockSyncInflight.get? h = none)
    (hmin : 1 ≤ c.limits.blockSyncMaxAttempts) (hmax : c.limits.blockSyncMaxAttempts < 2 ^ 32)
    (ms : List SyncMove) :
    Counted c.limits.blockSyncMaxAttempts
      ((run (watch P h) (c, 0) ms).1.blockSyncInflight.get? h) (run (watch P h) (c, 0) ms).2 := by
  have hstep : ∀ w m, (w.1.limits = c.limits ∧
      Counted c.limits.blockSyncMaxAttempts (w.1.blockSyncInflight.get? h) w.2) →
      (watch P h w m).1.limits = c.limits ∧ Counted c.limits.blockSyncMaxAttempts
        ((watch P h w m).1.blockSyncInflight.get? h) (watch P h w m).2 := by
    rintro w m ⟨hlimits, hw⟩
    have hcounted := counted_watch (P := P) (h := h) (w := w) (by rwa [hlimits])
      (by rwa [hlimits]) (by rwa [hlimits]) m
    rw [hlimits] at hcounted
    exact ⟨(limits_move P w.1 m).trans hlimits, hcounted⟩
  have hstart : c.limits = c.limits ∧
      Counted c.limits.blockSyncMaxAttempts (c.blockSyncInflight.get? h) 0 := by
    rw [hempty]
    exact ⟨rfl, rfl⟩
  exact (run_invariant hstep (s := (c, 0)) hstart ms).2

/-- The core of a watched run is that of the run. -/
theorem run_watch (c : HotStuffCore) (n : ℕ) (ms : List SyncMove) :
    (run (watch P h) (c, n) ms).1 = run (follow P) c ms :=
  (run_image (f := Prod.fst) (fun _ _ => rfl) (c, n) ms)

end HotStuffCore

end Boule
