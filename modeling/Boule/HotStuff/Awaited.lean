import Boule.HotStuff.Parked
import Boule.HotStuff.Requests

/-! What a core waits for is pending or being asked for, as long as no move drops it. -/
namespace Boule

open HotStuffState

/-- The insertion of `b` throws the block `h` out. -/
def HotStuffState.Evicts (P : Primitives) (s : HotStuffState) (b : Block) (h : BlockHash) : Prop :=
  ¬ s.HasRoomFor P b ∧ s.pendingVictim.map Prod.fst = some h

instance (P : Primitives) (s : HotStuffState) (b : Block) (h : BlockHash) :
    Decidable (s.Evicts P b h) := inferInstanceAs (Decidable (_ ∧ _))

theorem HotStuffState.containsKey_insertPending {P : Primitives} {s : HotStuffState} {b : Block}
    {h : BlockHash} (hk : s.pendingBlocks.containsKey h = true ∨ h = b.hash P)
    (hstays : ¬ s.Evicts P b h) : (s.insertPending P b).pendingBlocks.containsKey h = true := by
  rw [Table.containsKey_iff]
  by_cases he : h = b.hash P
  · exact ⟨b, he ▸ getPending_insertPending_self P s b⟩
  · obtain ⟨x, hx⟩ := (Table.containsKey_iff _ _).mp (hk.resolve_right he)
    refine ⟨x, getPending_insertPending_of_kept hx he ?_⟩
    by_cases hroom : s.HasRoomFor P b
    · exact .inl hroom
    · refine .inr fun hlowest => hstays ⟨hroom, ?_⟩
      rw [pendingVictim_eq_some_iff.mpr hlowest]
      rfl

namespace SyncMove

/-- The parked proposals that the step has yet to resume. -/
def rest : SyncMove → List BlockHash
  | .receive _ rest => rest
  | _ => []

/-- The block that a proposal brings. -/
def proposed : SyncMove → Option Block
  | .receive signed _ => some signed.payload.block
  | _ => none

end SyncMove

namespace HotStuffCore

def KnownOrAsked (c : HotStuffCore) (h : BlockHash) : Prop :=
  c.state.pendingBlocks.containsKey h = true ∨ c.blockSyncInflight.containsKey h = true

instance (c : HotStuffCore) : DecidablePred c.KnownOrAsked := fun _ =>
  inferInstanceAs (Decidable (_ ∨ _))

/-- The parents of all parked proposals and the block of the high certificate are pending or asked
for. -/
structure Attended (c : HotStuffCore) : Prop where
  parked : ∀ e ∈ c.parkedProposals.toList, c.KnownOrAsked e.2.payload.block.header.parentHash
  highQc : ∀ qc ∈ c.state.highQc, c.KnownOrAsked qc.blockHash

instance : DecidablePred Attended := fun c =>
  decidable_of_iff ((∀ e ∈ c.parkedProposals.toList, _) ∧ ∀ qc ∈ c.state.highQc, _)
    ⟨fun h => ⟨h.1, h.2⟩, fun h => ⟨h.parked, h.highQc⟩⟩

/-! ### The moves that drop something -/

/-- The move takes a block out of the pending ones: it is evicted for another one, or a commit
prunes it. -/
def Loses (P : Primitives) (c : HotStuffCore) (h : BlockHash) : SyncMove → Prop
  | .receive signed _ =>
    c.state.pendingBlocks.containsKey signed.payload.block.header.parentHash = true ∧
      (c.state.Evicts P signed.payload.block h ∨ AcceptCall.Prunes P (c.state, signed.payload) h)
  | .insert block => c.state.Evicts P block h
  | _ => False

/-- The move finds the attempts for a block exhausted. -/
def GivesUp (c : HotStuffCore) (h : BlockHash) : SyncMove → Prop
  | .retry parentHash | .tick parentHash => parentHash = h ∧
    ∃ entry ∈ c.blockSyncInflight.get? h, c.limits.blockSyncMaxAttempts ≤ entry.attempts
  | _ => False

/-- The certificate that a proposal or a vote makes the high one. -/
def adopted (P : Primitives) (c : HotStuffCore) : SyncMove → Option QuorumCertificate
  | .receive signed _ =>
    if c.state.pendingBlocks.containsKey signed.payload.block.header.parentHash = true ∧
        c.state.votesFor P signed.payload ∧ shouldUpdateHighQc signed.payload.justify c.state then
      some signed.payload.justify
    else none
  | .vote variant => c.formedBy P variant
  | _ => none

/-- The move drops nothing that a parked proposal or the high certificate waits for, and adopts
only a certificate whose block is pending or asked for. -/
structure Spares (P : Primitives) (c : HotStuffCore) (m : SyncMove) : Prop where
  parents : ∀ e ∈ c.parkedProposals.toList, e.1 ∉ m.rest →
    ¬ c.Loses P e.2.payload.block.header.parentHash m
  highQc : ∀ qc ∈ (c.adopted P m).or c.state.highQc,
    ¬ c.Loses P qc.blockHash m ∧ ¬ c.GivesUp qc.blockHash m
  adopts : ∀ qc ∈ c.adopted P m,
    c.KnownOrAsked qc.blockHash ∨ m.proposed.map (Block.hash P) = some qc.blockHash

instance (P : Primitives) (call : AcceptCall) (h : BlockHash) : Decidable (call.Prunes P h) :=
  inferInstanceAs (Decidable (∃ b ∈ (call.1.insertPending P call.2.block).getPending h, _))

instance (P : Primitives) (c : HotStuffCore) (h : BlockHash) : DecidablePred (c.Loses P h)
  | .receive _ _ => inferInstanceAs (Decidable (_ ∧ _))
  | .insert block => inferInstanceAs (Decidable (c.state.Evicts P block h))
  | .checkDedupe .. | .enterView .. | .release .. | .vote .. | .newView .. | .retry .. | .tick ..
  | .announce .. => inferInstanceAs (Decidable False)

instance (c : HotStuffCore) (h : BlockHash) : DecidablePred (c.GivesUp h)
  | .retry _ | .tick _ => inferInstanceAs (Decidable (_ ∧ _))
  | .checkDedupe .. | .enterView .. | .release .. | .receive .. | .vote .. | .newView ..
  | .announce .. | .insert .. => inferInstanceAs (Decidable False)

instance (P : Primitives) (c : HotStuffCore) : DecidablePred (Spares P c) := fun m =>
  decidable_of_iff ((∀ e ∈ c.parkedProposals.toList, _) ∧
      (∀ qc ∈ (c.adopted P m).or c.state.highQc, _) ∧ ∀ qc ∈ c.adopted P m, _)
    ⟨fun h => ⟨h.1, h.2.1, h.2.2⟩, fun h => ⟨h.parents, h.highQc, h.adopts⟩⟩

/-- Everything but the parked proposals of `rest` is attended to. -/
structure AttendedBut (rest : List BlockHash) (c : HotStuffCore) : Prop where
  parked : ∀ k signed, c.parkedProposals.get? k = some signed → k ∉ rest →
    c.KnownOrAsked signed.payload.block.header.parentHash
  highQc : ∀ qc ∈ c.state.highQc, c.KnownOrAsked qc.blockHash

variable {P : Primitives} {c c' : HotStuffCore} {rest : List BlockHash}

theorem AttendedBut.mono (h : AttendedBut rest c)
    (hparked : ∀ {k signed}, c'.parkedProposals.get? k = some signed →
      c.parkedProposals.get? k = some signed)
    (hqc : c'.state.highQc = c.state.highQc)
    (hmore : ∀ h, c.KnownOrAsked h → c'.KnownOrAsked h) : AttendedBut rest c' where
  parked k signed hk hrest := hmore _ (h.parked k signed (hparked hk) hrest)
  highQc qc hmem := hmore _ (h.highQc qc (hqc ▸ hmem))

/-! ### Block sync -/

theorem knownOrAsked_of_insert {hash h : BlockHash} {entry : BlockSyncInflight}
    (hstate : c'.state = c.state)
    (hinsert : c'.blockSyncInflight = c.blockSyncInflight.insert hash entry)
    (hk : c.KnownOrAsked h ∨ h = hash) : c'.KnownOrAsked h := by
  by_cases he : h = hash
  · right
    rw [hinsert, Table.containsKey_iff, he]
    exact ⟨entry, Table.get?_insert_self ..⟩
  · refine (hk.resolve_right he).imp (fun hp => hstate ▸ hp) fun hasked => ?_
    rw [Table.containsKey_iff] at hasked ⊢
    rw [hinsert, Table.get?_insert_of_ne _ he]
    exact hasked

/-- A block that the core turns to is asked for, and nothing is forgotten. -/
theorem knownOrAsked_tryEmitBlockSyncRetry {hash h : BlockHash} (sender : NodeId) (height : ℕ)
    (reason : BlockSyncReason) (hk : c.KnownOrAsked h ∨ h = hash) :
    (c.tryEmitBlockSyncRetry hash sender height reason).1.KnownOrAsked h := by
  unfold tryEmitBlockSyncRetry
  cases hget : c.blockSyncInflight.get? hash with
  | none => exact knownOrAsked_of_insert (c := c) rfl rfl hk
  | some entry =>
    have hold : c.KnownOrAsked h := by
      rcases hk with hk | rfl
      · exact hk
      · exact .inr ((Table.containsKey_iff _ _).mpr ⟨entry, hget⟩)
    simp only
    split_ifs
    · exact hold
    · exact hold
    · exact knownOrAsked_of_insert (c := c) rfl rfl (.inl hold)

theorem AttendedBut.dropParkedForParent (h : AttendedBut rest c) {hash : BlockHash}
    (hqc : ∀ qc ∈ c.state.highQc, qc.blockHash ≠ hash) :
    AttendedBut rest (c.dropParkedForParent hash) := by
  have hother : ∀ x, x ≠ hash → c.KnownOrAsked x → (c.dropParkedForParent hash).KnownOrAsked x := by
    intro x hne
    refine Or.imp_right fun hasked => ?_
    rw [Table.containsKey_iff] at hasked ⊢
    rw [HotStuffCore.dropParkedForParent, Table.get?_erase, if_neg hne]
    exact hasked
  constructor
  · intro k signed hk hrest
    obtain ⟨hold, hne⟩ := (Table.get?_retain_eq_some _ _ _ _).mp hk
    exact hother _ (of_decide_eq_true hne) (h.parked k signed hold hrest)
  · intro qc hmem
    exact hother _ (hqc qc hmem) (h.highQc qc hmem)

theorem AttendedBut.retry (h : AttendedBut rest c) {hash : BlockHash}
    (hs : Spares P c (.retry hash)) : AttendedBut rest (c.runBlockSyncRetryForParent hash).1 := by
  unfold runBlockSyncRetryForParent
  cases hget : c.blockSyncInflight.get? hash with
  | none => exact h
  | some entry =>
    simp only
    split_ifs with hmax
    · refine h.dropParkedForParent fun qc hmem he => ?_
      have hentry : entry ∈ c.blockSyncInflight.get? qc.blockHash := he ▸ hget
      exact (hs.highQc qc hmem).2 ⟨he.symm, entry, hentry, hmax⟩
    · have hframe := (quiet_tryEmitBlockSyncRetry c hash entry.originalSender entry.expectedHeight
        .stillParkedOnPacemakerAdvance).1
      exact h.mono hframe.parked (congrArg HotStuffState.highQc hframe.state)
        fun x hx => knownOrAsked_tryEmitBlockSyncRetry _ _ _ (.inl hx)

theorem AttendedBut.tick (h : AttendedBut rest c) {hash : BlockHash}
    (hs : Spares P c (.tick hash)) :
    AttendedBut rest (c.runBlockSyncRetryTickForParent hash).1 := by
  unfold runBlockSyncRetryTickForParent
  cases hget : c.blockSyncInflight.get? hash with
  | none => exact h
  | some entry =>
    simp only
    split_ifs with hmax
    · refine h.dropParkedForParent fun qc hmem he => ?_
      have hentry : entry ∈ c.blockSyncInflight.get? qc.blockHash := he ▸ hget
      exact (hs.highQc qc hmem).2 ⟨he.symm, entry, hentry, hmax⟩
    · exact h.mono id rfl fun x hx => knownOrAsked_of_insert (c := c) rfl rfl (.inl hx)

/-! ### Proposals -/

/-- A parked proposal's parent is asked for, and nothing is forgotten. -/
theorem knownOrAsked_parkProposal {signed : Signed Proposal} {h : BlockHash}
    (hk : c.KnownOrAsked h ∨ h = signed.payload.block.header.parentHash) :
    (c.parkProposal P signed).1.KnownOrAsked h := by
  obtain ⟨parked, hparked⟩ := insertParked_eq P c signed
  unfold parkProposal
  refine knownOrAsked_tryEmitBlockSyncRetry _ _ _ ?_
  rw [hparked]
  exact hk

theorem highQc_parkProposal (signed : Signed Proposal) :
    (c.parkProposal P signed).1.state.highQc = c.state.highQc := by
  have hquiet := (quiet_tryEmitBlockSyncRetry (c.insertParked P signed)
    signed.payload.block.header.parentHash signed.signer
    (signed.payload.block.header.height - 1) .unknownParentOnProposal).1
  unfold parkProposal
  rw [hquiet.state, insertParked_state]

/-- A block that is known or asked for, or comes with the proposal, is so afterwards. -/
theorem knownOrAsked_accept {signed : Signed Proposal} {h : BlockHash}
    (hparent : c.state.pendingBlocks.containsKey signed.payload.block.header.parentHash = true)
    (hk : c.KnownOrAsked h ∨ h = signed.payload.block.hash P)
    (hstays : ¬ c.Loses P h (.receive signed rest)) :
    (c.onProposalReceived P signed).1.KnownOrAsked h := by
  rw [onProposalReceived_of_known hparent]
  have hpending : c.state.pendingBlocks.containsKey h = true ∨ h = signed.payload.block.hash P →
      (c.state.acceptProposal P signed.payload).1.pendingBlocks.containsKey h = true := by
    intro hp
    have hinserted := containsKey_insertPending hp fun hevicts => hstays ⟨hparent, .inl hevicts⟩
    have hnext := @AcceptCall.containsKey_next P (c.state, signed.payload) h hinserted
    exact hnext.resolve_right fun hprunes => hstays ⟨hparent, .inr hprunes⟩
  by_cases he : h = signed.payload.block.hash P
  · exact .inl (hpending (.inr he))
  · refine (hk.resolve_right he).imp (fun hp => hpending (.inl hp)) fun hasked => ?_
    rw [Table.containsKey_iff] at hasked ⊢
    rw [Table.get?_erase, if_neg he]
    exact hasked

theorem AttendedBut.accept (h : AttendedBut rest c) {signed : Signed Proposal}
    (hparent : c.state.pendingBlocks.containsKey signed.payload.block.header.parentHash = true)
    (hs : Spares P c (.receive signed rest)) :
    AttendedBut rest (c.onProposalReceived P signed).1 := by
  have hqcs : (c.onProposalReceived P signed).1.state.highQc =
      (c.adopted P (.receive signed rest)).or c.state.highQc := by
    rw [onProposalReceived_of_known hparent]
    show (c.state.acceptProposal P signed.payload).1.highQc = _
    rw [acceptProposal_highQc, adopted]
    simp only [hparent, true_and]
    split_ifs <;> rfl
  constructor
  · intro k signed' hk hrest
    rw [onProposalReceived_of_known hparent] at hk
    exact knownOrAsked_accept hparent (.inl (h.parked k signed' hk hrest))
      (hs.parents (k, signed') ((Table.mem_toList _ _ _).mpr hk) hrest)
  · intro qc hmem
    rw [hqcs] at hmem
    refine knownOrAsked_accept hparent ?_ (hs.highQc qc hmem).1
    rcases Option.or_eq_some_iff.mp hmem with hadopted | ⟨-, hold⟩
    · exact (hs.adopts qc hadopted).imp_right fun he => (Option.some.inj he).symm
    · exact .inl (h.highQc qc hold)

theorem AttendedBut.park (h : AttendedBut rest c) (signed : Signed Proposal) :
    AttendedBut rest (c.parkProposal P signed).1 := by
  have hparked := (quiet_tryEmitBlockSyncRetry (c.insertParked P signed)
    signed.payload.block.header.parentHash signed.signer
    (signed.payload.block.header.height - 1) .unknownParentOnProposal).1
  constructor
  · intro k signed' hk hrest
    apply knownOrAsked_parkProposal
    rcases parked_insertParked (hparked.parked hk) with ⟨-, rfl⟩ | hold
    · exact .inr rfl
    · exact .inl (h.parked k signed' hold hrest)
  · intro qc hmem
    rw [highQc_parkProposal] at hmem
    exact knownOrAsked_parkProposal (.inl (h.highQc qc hmem))

theorem AttendedBut.receive (h : AttendedBut rest c) {signed : Signed Proposal}
    (hs : Spares P c (.receive signed rest)) :
    AttendedBut rest (c.onProposalReceived P signed).1 := by
  cases hp : c.state.pendingBlocks.containsKey signed.payload.block.header.parentHash with
  | true => exact h.accept hp hs
  | false =>
    rw [onProposalReceived_of_unknown hp]
    exact h.park signed

/-! ### Resuming -/

theorem knownOrAsked_releaseParked {k parentHash h : BlockHash} (hk : c.KnownOrAsked h) :
    (c.releaseParked k parentHash).KnownOrAsked h ∨ h = parentHash := by
  by_cases he : h = parentHash
  · exact .inr he
  · refine .inl (hk.imp_right fun hasked => ?_)
    rw [Table.containsKey_iff] at hasked ⊢
    rw [releaseParked, Table.get?_erase, if_neg he]
    exact hasked

/-- The next proposal to resume: its parent is still known, or is asked for again. -/
theorem AttendedBut.release {k : BlockHash} {ks : List BlockHash} (h : AttendedBut (k :: ks) c)
    {signed : Signed Proposal}
    (hs : Spares P (c.releaseParked k signed.payload.block.header.parentHash)
      (.receive signed ks)) :
    AttendedBut ks ((c.releaseParked k signed.payload.block.header.parentHash).onProposalReceived P
      signed).1 := by
  have hparked : ∀ k' signed', (c.releaseParked k signed.payload.block.header.parentHash
      ).parkedProposals.get? k' = some signed' → k' ∉ ks →
        c.KnownOrAsked signed'.payload.block.header.parentHash := by
    intro k' signed' hk hrest
    rw [releaseParked, Table.get?_erase] at hk
    split_ifs at hk with hne
    exact h.parked k' signed' hk (by simp [hne, hrest])
  cases hp : (c.releaseParked k signed.payload.block.header.parentHash
      ).state.pendingBlocks.containsKey signed.payload.block.header.parentHash with
  | true =>
    have hall : ∀ x, c.KnownOrAsked x →
        (c.releaseParked k signed.payload.block.header.parentHash).KnownOrAsked x := by
      intro x hx
      refine (knownOrAsked_releaseParked hx).elim id fun he => .inl ?_
      rw [he]
      exact hp
    have hreleased : AttendedBut ks (c.releaseParked k signed.payload.block.header.parentHash) :=
      ⟨fun k' signed' hk hrest => hall _ (hparked k' signed' hk hrest),
        fun qc hmem => hall _ (h.highQc qc hmem)⟩
    exact hreleased.accept hp hs
  | false =>
    have hquiet := (quiet_tryEmitBlockSyncRetry
      ((c.releaseParked k signed.payload.block.header.parentHash).insertParked P signed)
      signed.payload.block.header.parentHash signed.signer
      (signed.payload.block.header.height - 1) .unknownParentOnProposal).1
    rw [onProposalReceived_of_unknown hp]
    constructor
    · intro k' signed' hk hrest
      apply knownOrAsked_parkProposal
      rcases parked_insertParked (hquiet.parked hk) with ⟨-, rfl⟩ | hold
      · exact .inr rfl
      · exact knownOrAsked_releaseParked (hparked k' signed' hold hrest)
    · intro qc hmem
      rw [highQc_parkProposal] at hmem
      exact knownOrAsked_parkProposal (knownOrAsked_releaseParked (h.highQc qc hmem))

theorem AttendedBut.resumeMoves {ks : List BlockHash} (h : AttendedBut ks c)
    (hs : Along (follow P) (Spares P) c (c.resumeMoves P ks)) :
    AttendedBut [] (run (follow P) c (c.resumeMoves P ks)) := by
  induction ks generalizing c with
  | nil => exact h
  | cons k ks ih =>
    unfold HotStuffCore.resumeMoves at hs ⊢
    cases hget : c.parkedProposals.get? k with
    | none =>
      have hidle : (c.resumeParked P k).1 = c := by
        unfold resumeParked
        rw [hget]
      rw [hget] at hs
      simp only [hidle, Option.elim_none, List.nil_append] at hs ⊢
      refine ih ⟨fun k' signed hk hrest => h.parked k' signed hk ?_, h.highQc⟩ hs
      have hne : k' ≠ k := by
        rintro rfl
        rw [hget] at hk
        cases hk
      simp [hne, hrest]
    | some signed =>
      rw [hget] at hs
      simp only [Option.elim_some] at hs ⊢
      obtain ⟨hfirst, hrest⟩ := hs.append
      have hresumed : run (follow P) c [.release k signed.payload.block.header.parentHash,
          .receive signed ks] = (c.resumeParked P k).1 := by
        rw [← moveAll_release hget ks]
        rfl
      have hnext : AttendedBut ks (c.resumeParked P k).1 := by
        rw [← hresumed]
        exact h.release hfirst.2.1
      rw [run_append, hresumed]
      rw [hresumed] at hrest
      exact ih hnext hrest

/-! ### Steps -/

theorem AttendedBut.newView (h : AttendedBut rest c) (signed : Signed NewView) :
    AttendedBut rest (c.onNewViewReceived signed).1 := by
  unfold onNewViewReceived
  simp only
  split_ifs with hup hknown
  · exact h
  · exact ⟨h.parked, fun qc hmem => Option.some.inj hmem ▸ .inl hknown⟩
  · have hquiet := (quiet_tryEmitBlockSyncRetry (c.setHighQc signed.payload.highQc)
      signed.payload.highQc.blockHash signed.signer 0 .unknownHighQcOnNewView).1
    constructor
    · intro k signed' hk hrest
      have hold := h.parked k signed' (hquiet.parked hk) hrest
      exact knownOrAsked_tryEmitBlockSyncRetry _ _ _ (.inl hold)
    · intro qc hmem
      rw [hquiet.state] at hmem
      have hqc : signed.payload.highQc = qc := Option.some.inj hmem
      exact knownOrAsked_tryEmitBlockSyncRetry _ _ _ (.inr (by rw [hqc]))

theorem AttendedBut.vote (h : AttendedBut rest c) {variant : VoteVariant}
    (hs : Spares P c (.vote variant)) : AttendedBut rest (c.onVoteReceived P variant).1 := by
  obtain ⟨bucket, dedupe, heq⟩ := onVoteReceived_eq P c variant
  rw [heq]
  refine ⟨h.parked, fun qc hmem => ?_⟩
  rcases Option.or_eq_some_iff.mp hmem with hformed | ⟨-, hold⟩
  · exact (hs.adopts qc hformed).resolve_right (by simp [SyncMove.proposed])
  · exact h.highQc qc hold

theorem AttendedBut.insert (h : AttendedBut [] c) {block : Block}
    (hs : Spares P c (.insert block)) : AttendedBut [] (c.insertPendingBlock P block) := by
  have hkept : ∀ x, c.KnownOrAsked x → ¬ c.state.Evicts P block x →
      (c.insertPendingBlock P block).KnownOrAsked x := by
    intro x hx hstays
    by_cases he : x = block.hash P
    · exact .inl (containsKey_insertPending (.inr he) hstays)
    · refine hx.imp (fun hp => containsKey_insertPending (.inl hp) hstays) fun hasked => ?_
      rw [Table.containsKey_iff] at hasked ⊢
      rw [insertPendingBlock, Table.get?_erase, if_neg he]
      exact hasked
  constructor
  · intro k signed hk hrest
    exact hkept _ (h.parked k signed hk hrest)
      (hs.parents (k, signed) ((Table.mem_toList _ _ _).mpr hk) hrest)
  · intro qc hmem
    have hold : qc ∈ c.state.highQc := insertPending_highQc P c.state block ▸ hmem
    exact hkept _ (h.highQc qc hold) (hs.highQc qc hold).1

/-- A move that resumes nothing keeps everything attended to. -/
theorem AttendedBut.follow (h : AttendedBut [] c) {m : SyncMove} (hs : Spares P c m)
    (hrest : m.rest = []) (hm : ∀ k parentHash, m ≠ .release k parentHash) :
    AttendedBut [] (c.follow P m) := by
  cases m with
  | checkDedupe view leader blockHash =>
    have hquiet := (quiet_checkProposalDedupe c view leader blockHash).1
    have hsame : (c.checkProposalDedupe view leader blockHash).1.blockSyncInflight =
        c.blockSyncInflight := by
      unfold checkProposalDedupe
      split
      · rfl
      · split_ifs <;> rfl
    refine h.mono hquiet.parked (congrArg HotStuffState.highQc hquiet.state) fun x hx => ?_
    show (c.checkProposalDedupe view leader blockHash).1.KnownOrAsked x
    unfold KnownOrAsked
    rw [hquiet.state, hsame]
    exact hx
  | enterView view => exact h.mono id rfl fun _ hx => hx
  | release k parentHash => exact absurd rfl (hm k parentHash)
  | receive signed rest =>
    obtain rfl : rest = [] := hrest
    exact h.receive hs
  | vote variant => exact h.vote hs
  | newView signed => exact h.newView signed
  | retry parentHash => exact h.retry hs
  | tick parentHash => exact h.tick hs
  | announce view => exact h
  | insert block => exact h.insert hs

theorem AttendedBut.all {ms : List SyncMove}
    (hplain : ∀ m ∈ ms, m.rest = [] ∧ ∀ k parentHash, m ≠ .release k parentHash)
    (hs : Along (HotStuffCore.follow P) (Spares P) c ms) (h : AttendedBut [] c) :
    AttendedBut [] (run (HotStuffCore.follow P) c ms) :=
  (hs.and (Along.of_forall hplain)).invariant
    (fun _ _ hm hi => hi.follow hm.1 hm.2.1 hm.2.2) h

theorem AttendedBut.advance (h : AttendedBut [] c) {input : StepInput}
    (hs : Along (HotStuffCore.follow P) (Spares P) c (c.moves P input)) :
    AttendedBut [] (c.advance P input) := by
  rw [← run_moves]
  cases input with
  | event order event =>
    cases event with
    | proposalReceived verified =>
      exact h.all (by simp [moves, SyncMove.rest]) hs
    | voteReceived variant => exact h.all (by simp [moves, SyncMove.rest]) hs
    | newViewReceived verified => exact h.all (by simp [moves, SyncMove.rest]) hs
    | pacemakerAdvance v =>
      obtain ⟨-, hs⟩ := hs
      obtain ⟨hresume, hs⟩ := hs.append
      have hready : AttendedBut (order.apply (c.enterView v).readyParked) (c.enterView v) :=
        ⟨fun k signed hk _ => h.parked k signed hk List.not_mem_nil, h.highQc⟩
      have hresumed := hready.resumeMoves hresume
      show AttendedBut [] (run (HotStuffCore.follow P) (c.enterView v) _)
      rw [run_append]
      refine hresumed.all ?_ hs
      intro m hm
      rcases List.mem_append.mp hm with hm | hm
      · obtain ⟨x, -, rfl⟩ := List.mem_map.mp hm
        exact ⟨rfl, by simp⟩
      · rw [List.mem_singleton.mp hm]
        exact ⟨rfl, by simp⟩
  | insertPendingBlock block => exact h.all (by simp [moves, SyncMove.rest]) hs
  | blockSyncRetryTick =>
    refine h.all ?_ hs
    intro m hm
    obtain ⟨x, -, rfl⟩ := List.mem_map.mp hm
    exact ⟨rfl, by simp⟩

theorem attendedBut_run {inputs : List StepInput} (h : AttendedBut [] c)
    (hs : Along (HotStuffCore.follow P) (Spares P) c (c.trail P inputs)) (k : ℕ) :
    AttendedBut [] (run (HotStuffCore.advance P) c (inputs.take k)) := by
  induction inputs generalizing c k with
  | nil => simpa using h
  | cons input inputs ih =>
    cases k with
    | zero => exact h
    | succ k =>
      obtain ⟨hfirst, hrest⟩ := hs.append
      rw [run_moves] at hrest
      exact ih (h.advance hfirst) hrest k

/-- An entry counts its requests, which keep within the limit. No parked proposal and no high
certificate is without the block it needs or a request for it, as long as every move of the run
spares what is waited for. -/
theorem attended_of_spares (P : Primitives) (selfId : NodeId) (state : HotStuffState)
    (limits : CacheLimits) (view : ℕ) (inputs : List StepInput)
    (hmin : 1 ≤ limits.blockSyncMaxAttempts) (hmax : limits.blockSyncMaxAttempts < 2 ^ 32) :
    let start := (withLimits selfId state limits).withProposedInView view
    (∀ k h entry, (run (advance P) start (inputs.take k)).blockSyncInflight.get? h = some entry →
      1 ≤ entry.attempts ∧ entry.attempts ≤ limits.blockSyncMaxAttempts) ∧
    (∀ h k, (run (watch P h) (start, 0) ((start.trail P inputs).take k)).2 ≤
      limits.blockSyncMaxAttempts) ∧
    ((∀ qc ∈ state.highQc, state.pendingBlocks.containsKey qc.blockHash = true) →
      Along (HotStuffCore.follow P) (Spares P) start (start.trail P inputs) →
      ∀ k, Attended (run (advance P) start (inputs.take k))) := by
  intro start
  have hcounted := fun h ms => counted_run (P := P) (h := h) (c := start) rfl hmin hmax ms
  refine ⟨?_, fun h k => (hcounted h _).le, ?_⟩
  · intro k h entry hentry
    have hone := hcounted h (start.trail P (inputs.take k))
    rw [run_watch, run_trail, hentry] at hone
    exact ⟨hone.1 ▸ hone.2.1, hone.1 ▸ hone.2.2⟩
  · intro hknown hs k
    have hstart : AttendedBut [] start := by
      refine ⟨fun k signed hk => ?_, fun qc hmem => .inl (hknown qc hmem)⟩
      simp [start, withLimits, withProposedInView] at hk
    have hall := attendedBut_run hstart hs k
    refine ⟨fun e he => ?_, hall.highQc⟩
    exact hall.parked e.1 e.2 ((Table.mem_toList _ _ _).mp he) List.not_mem_nil

end HotStuffCore

namespace Sample
open HotStuffCore

/-- A proposal comes before its parent, which is asked for twice and then arrives; a new view brings
the certificate of an unknown block. -/
def fetched : List StepInput :=
  [.event order (received d₂), .blockSyncRetryTick, .insertPendingBlock d₁.block,
    .event order (.newViewReceived ⟨⟨⟨certify aside₁ [0, 1, 3]⟩, 2, 0⟩, 2⟩),
    .event order (.pacemakerAdvance 3)]

theorem fetched_attended : Attended (run (advance primitives) (sized 4) fetched) := by
  have hall := attended_of_spares primitives 1 (.new primitives validators genesis)
    { CacheLimits.unboundedForTests with pendingBlocksCapacity := 4 } 0 fetched (by decide)
    (by decide)
  exact hall.2.2 (by decide) (by decide) fetched.length

/-- The parent that a parked proposal waits for arrives, and is evicted for another block. -/
def evicted : List StepInput :=
  [.event order (received d₂), .insertPendingBlock d₁.block, .insertPendingBlock aside₁,
    .event order (.pacemakerAdvance 3), .blockSyncRetryTick]

/-- Three votes for a block that is not known. -/
def acclaimed : List StepInput :=
  [1, 2, 3].map fun voter =>
    .event order (.voteReceived ⟨⟨⟨⟨9, aside₁.hash primitives⟩, voter, 0⟩, voter⟩, 1⟩)

/-- Nobody asks for the evicted parent, nor for the block that the votes certify. -/
theorem unattended :
    ¬ Attended (run (advance primitives) (sized 2) evicted) ∧
    ¬ Attended (run (advance primitives) (sized 4) acclaimed) := by
  decide

end Sample

end Boule
