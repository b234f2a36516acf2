import Boule.HotStuff.Records

/-! The certificates that a core keeps and sends on: the high certificate, those of the parked
proposals and those of its new views. All of them came with a message or were formed by votes. -/
namespace Boule.HotStuffCore
open HotStuffState

/-- The high certificate and those of the parked proposals are of a kind. -/
structure Keeps (Q : QuorumCertificate → Prop) (c : HotStuffCore) : Prop where
  high : ∀ qc ∈ c.state.highQc, Q qc
  parked : ∀ {h signed}, c.parkedProposals.get? h = some signed → Q signed.payload.justify

/-- So are those of the new views that are sent. -/
def Sends (Q : QuorumCertificate → Prop) (r : HotStuffCore × List Action) : Prop :=
  r.1.Keeps Q ∧ ∀ nv, .broadcast (.newView nv) ∈ r.2 → Q nv.highQc

variable {Q : QuorumCertificate → Prop} {P : Primitives} {c c' : HotStuffCore}

theorem Keeps.cacheOnly (h : c.Keeps Q) (hc : CacheOnly c c') : c'.Keeps Q where
  high := by
    rw [hc.state]
    exact h.high
  parked := fun hs => h.parked (hc.parked hs)

theorem Keeps.sync (h : c.Keeps Q) {r : HotStuffCore × List Action} (hq : Quiet c r)
    (hs : Syncs c r) : Sends Q r := by
  refine ⟨h.cacheOnly hq.1, fun nv hnv => ?_⟩
  have hrecord : Action.isRecord (.broadcast (.newView nv)) = false := hs.quiet _ hnv
  cases hrecord

/-- Actions that are no records send no new view. -/
theorem Sends.append_quiet {c' : HotStuffCore} {actions more : List Action}
    (h : Sends Q (c', actions)) (hq : ∀ a ∈ more, a.isRecord = false) :
    Sends Q (c', actions ++ more) := by
  refine ⟨h.1, fun nv hnv => ?_⟩
  rcases List.mem_append.mp hnv with hnv | hnv
  · exact h.2 nv hnv
  · have hrecord : Action.isRecord (.broadcast (.newView nv)) = false := hq _ hnv
    cases hrecord

theorem Keeps.insertParked (h : c.Keeps Q) {signed : Signed Proposal}
    (hsigned : Q signed.payload.justify) : (c.insertParked P signed).Keeps Q where
  high := by
    rw [insertParked_state]
    exact h.high
  parked := fun {k x} hx => by
    rcases get?_insertParked hx with rfl | hold
    · exact hsigned
    · exact h.parked hold

/-- A proposal hands on no certificate but its own. -/
theorem Keeps.onProposalReceived (h : c.Keeps Q) {signed : Signed Proposal}
    (hsigned : Q signed.payload.justify) : Sends Q (c.onProposalReceived P signed) := by
  cases hp : c.state.pendingBlocks.containsKey signed.payload.block.header.parentHash with
  | false =>
    rw [onProposalReceived_of_unknown hp]
    exact (h.insertParked hsigned).sync (quiet_tryEmitBlockSyncRetry _ _ _ _ _)
      (syncs_tryEmitBlockSyncRetry _ _ _ _ _)
  | true =>
    rw [onProposalReceived_of_known hp]
    refine ⟨⟨fun qc hqc => ?_, h.parked⟩, fun nv hnv => ?_⟩
    · have hnext : (c.state.acceptProposal P signed.payload).1.highQc = some qc := hqc
      rw [acceptProposal_highQc] at hnext
      split_ifs at hnext
      · rw [← Option.some.inj hnext]
        exact hsigned
      · exact h.high qc hnext
    · rcases kind_of_mem_acceptProposal P c.state signed.payload hnv with
        ⟨update, hkind⟩ | ⟨vote, hkind⟩ | ⟨b, hkind⟩
      · cases hkind
      · cases hkind
      · cases hkind

theorem Keeps.resumeParked (h : c.Keeps Q) (hash : BlockHash) :
    Sends Q (c.resumeParked P hash) := by
  unfold HotStuffCore.resumeParked
  cases hs : c.parkedProposals.get? hash with
  | none => exact ⟨h, fun nv hnv => absurd hnv List.not_mem_nil⟩
  | some signed =>
    have herased : { c with
        parkedProposals := c.parkedProposals.erase hash
        blockSyncInflight := c.blockSyncInflight.erase
          signed.payload.block.header.parentHash }.Keeps Q :=
      ⟨h.high, fun hx => h.parked (Table.get?_of_erase hx)⟩
    exact herased.onProposalReceived (h.parked hs)

theorem Keeps.forHashes {f : HotStuffCore → BlockHash → HotStuffCore × List Action}
    (hf : ∀ {c : HotStuffCore}, c.Keeps Q → ∀ hash, Sends Q (f c hash)) (h : c.Keeps Q)
    (hashes : List BlockHash) : Sends Q (forHashes f c hashes) := by
  induction hashes generalizing c with
  | nil => exact ⟨h, fun nv hnv => absurd hnv List.not_mem_nil⟩
  | cons hash hashes ih =>
    obtain ⟨hkeeps, hsends⟩ := hf h hash
    obtain ⟨hrest, hmore⟩ := ih hkeeps
    refine ⟨hrest, fun nv hnv => ?_⟩
    rcases List.mem_append.mp hnv with hnv | hnv
    · exact hsends nv hnv
    · exact hmore nv hnv

/-- A view change sends the high certificate it ends with. -/
theorem Keeps.onPacemakerAdvance (h : c.Keeps Q) (order : IterOrder) (v : ℕ) :
    Sends Q (c.onPacemakerAdvance P order v) := by
  have henter : (c.enterView v).Keeps Q := ⟨h.high, h.parked⟩
  have hresumed := henter.forHashes (f := HotStuffCore.resumeParked P)
    (fun hc => hc.resumeParked) (order.apply (c.enterView v).readyParked)
  simp only [HotStuffCore.onPacemakerAdvance]
  generalize HotStuffCore.forHashes (HotStuffCore.resumeParked P) (c.enterView v)
    (order.apply (c.enterView v).readyParked) = resumed at hresumed ⊢
  have hretried := hresumed.1.forHashes (f := runBlockSyncRetryForParent)
    (fun hc hash => hc.sync (quiet_runBlockSyncRetryForParent _ hash)
      (syncs_runBlockSyncRetryForParent _ hash)) resumed.1.parentHashesToRetry
  generalize HotStuffCore.forHashes runBlockSyncRetryForParent resumed.1
    resumed.1.parentHashesToRetry = retried at hretried ⊢
  refine Sends.append_quiet ⟨hretried.1, fun nv hnv => ?_⟩ (isRecord_tryProposeAsLeader _ v)
  rcases List.mem_append.mp hnv with hnv | hnv
  · rcases List.mem_append.mp hnv with hnv | hnv
    · exact hresumed.2 nv hnv
    · exact hretried.2 nv hnv
  · obtain ⟨qc, hqc, heq⟩ : ∃ qc ∈ retried.1.state.highQc, nv = ⟨qc⟩ := by
      unfold newViewActions at hnv
      cases hh : retried.1.state.highQc with
      | none => simp [hh] at hnv
      | some qc =>
        rw [hh] at hnv
        refine ⟨qc, rfl, ?_⟩
        simpa using hnv
    rw [heq]
    exact hretried.1.high qc hqc

theorem Keeps.onVoteReceived (h : c.Keeps Q) (variant : VoteVariant)
    (hformed : ∀ qc ∈ (c.recordVote P variant).2.2, Q qc) :
    Sends Q (c.onVoteReceived P variant) := by
  have hvotes := (recordVote_frame P c variant).1
  have hquiet : ∀ a ∈ (c.recordVote P variant).2.1, a.isRecord = false := fun a ha => by
    obtain ⟨voter, view, blockA, blockB, rfl⟩ := mem_recordVote ha
    rfl
  unfold HotStuffCore.onVoteReceived
  rcases hr : c.recordVote P variant with ⟨c', actions, formed⟩
  rw [hr] at hvotes hquiet hformed
  have hkeeps : c'.Keeps Q := by
    refine ⟨?_, fun hx => h.parked (hvotes.parkedProposals ▸ hx)⟩
    rw [hvotes.state]
    exact h.high
  have hnone : Sends Q (c', actions) := by
    have hempty : Sends Q (c', []) := ⟨hkeeps, fun nv hnv => absurd hnv List.not_mem_nil⟩
    exact hempty.append_quiet hquiet
  cases formed with
  | none => exact hnone
  | some qc =>
    refine Sends.append_quiet ?_ (isRecord_tryProposeAsLeader _ _)
    show Sends Q ((c'.adoptFormed qc).1, actions ++ (c'.adoptFormed qc).2)
    unfold adoptFormed
    split_ifs
    · refine ⟨⟨fun x hx => ?_, hkeeps.parked⟩, fun nv hnv => ?_⟩
      · obtain rfl : qc = x := Option.some.inj hx
        exact hformed qc rfl
      · rcases List.mem_append.mp hnv with hnv | hnv
        · exact hnone.2 nv hnv
        · cases List.mem_singleton.mp hnv
    · rw [List.append_nil]
      exact hnone

theorem Keeps.onNewViewReceived (h : c.Keeps Q) {signed : Signed NewView}
    (hsigned : Q signed.payload.highQc) : Sends Q (c.onNewViewReceived signed) := by
  have hset : (c.setHighQc signed.payload.highQc).Keeps Q := by
    refine ⟨fun x hx => ?_, h.parked⟩
    obtain rfl : signed.payload.highQc = x := Option.some.inj hx
    exact hsigned
  unfold HotStuffCore.onNewViewReceived
  simp only
  split_ifs
  · exact ⟨h, fun nv hnv => absurd hnv List.not_mem_nil⟩
  · exact ⟨hset, fun nv hnv => by cases List.mem_singleton.mp hnv⟩
  · have hsync := hset.sync (quiet_tryEmitBlockSyncRetry (c.setHighQc signed.payload.highQc)
      signed.payload.highQc.blockHash signed.signer 0 .unknownHighQcOnNewView)
      (syncs_tryEmitBlockSyncRetry _ _ _ _ _)
    refine ⟨hsync.1, fun nv hnv => ?_⟩
    rcases List.mem_cons.mp hnv with hnv | hnv
    · cases hnv
    · exact hsync.2 nv hnv

theorem isRecord_checkProposalDedupe (c : HotStuffCore) (v : ℕ) (leader : ValidatorId)
    (hash : BlockHash) : ∀ a ∈ (c.checkProposalDedupe v leader hash).2, a.isRecord = false := by
  unfold checkProposalDedupe
  split
  · simp
  · split_ifs <;> simp [Action.isRecord]

/-- The certificates that an event brings. -/
def bringsQcs : Event → List QuorumCertificate
  | .proposalReceived verified => [verified.value.payload.justify]
  | .newViewReceived verified => [verified.value.payload.highQc]
  | _ => []

theorem Keeps.step (h : c.Keeps Q) {order : IterOrder} {e : Event}
    (hbrings : ∀ qc ∈ bringsQcs e, Q qc)
    (hformed : ∀ variant, e = .voteReceived variant → ∀ qc ∈ (c.recordVote P variant).2.2, Q qc) :
    Sends Q (c.step P order e) := by
  cases e with
  | proposalReceived verified =>
    have hquiet := quiet_checkProposalDedupe c verified.value.payload.block.header.view
      verified.signerValidatorId (verified.value.payload.block.hash P)
    have hsync : Syncs c (c.checkProposalDedupe verified.value.payload.block.header.view
        verified.signerValidatorId (verified.value.payload.block.hash P)) :=
      ⟨hquiet.1.sameRecords, isRecord_checkProposalDedupe _ _ _ _⟩
    have hdedupe := h.sync hquiet hsync
    have hjustify : Q verified.value.payload.justify := hbrings _ (List.mem_singleton_self _)
    have hproposal := hdedupe.1.onProposalReceived (P := P) hjustify
    refine ⟨hproposal.1, fun nv hnv => ?_⟩
    rcases List.mem_append.mp hnv with hnv | hnv
    · exact hdedupe.2 nv hnv
    · exact hproposal.2 nv hnv
  | voteReceived variant => exact h.onVoteReceived variant (hformed variant rfl)
  | newViewReceived verified => exact h.onNewViewReceived (hbrings _ (List.mem_singleton_self _))
  | pacemakerAdvance v => exact h.onPacemakerAdvance order v

end Boule.HotStuffCore
