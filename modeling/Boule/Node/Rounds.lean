import Boule.HotStuff.Handover
import Boule.HotStuff.KeptQcs
import Boule.HotStuff.Progress
import Boule.Node.QuorumWeights

/-! Rounds: in each, the validators that take part are handed the proposal of a view, and the next
leader the votes for it. Every round then ends with the proposal of the next one. -/
namespace Boule
open HotStuffState

/-- No pending block is that of the proposal or stands on it. -/
def HotStuffState.Lacks (P : Primitives) (s : HotStuffState) (p : Proposal) : Prop :=
  ∀ e ∈ s.pendingBlocks.toList, e.1 ≠ p.block.hash P ∧ e.2.header.parentHash ≠ p.block.hash P

instance (P : Primitives) (s : HotStuffState) : DecidablePred (s.Lacks P) := fun _ =>
  inferInstanceAs (Decidable (∀ e ∈ s.pendingBlocks.toList, _))

theorem HotStuffState.Lacks.getPending {P : Primitives} {s : HotStuffState} {p : Proposal}
    (h : s.Lacks P p) {k : BlockHash} {b : Block} (hb : s.getPending k = some b) :
    k ≠ p.block.hash P ∧ b.header.parentHash ≠ p.block.hash P :=
  h (k, b) ((Table.mem_toList _ _ _).mpr hb)

namespace HotStuffCore
variable {P : Primitives} {c : HotStuffCore} {input : IterOrder × Event} {p p' : Proposal}
  {trail : List Proposal}

/-! ### One replica in a round -/

/-- The core has accepted the proposal and is ready for whatever new one succeeds it. -/
structure Settled (P : Primitives) (c : HotStuffCore) (p : Proposal) (trail : List Proposal) :
    Prop where
  inStep : c.InStep P (p :: trail) []
  follows : ∀ p', p.Succeeds P p' → c.state.Lacks P p' → Ready P c.state p' []

/-- It then waits for that one. -/
theorem Settled.next (h : c.Settled P p trail) (hsucc : p.Succeeds P p')
    (hlacks : c.state.Lacks P p') : c.InStep P (p :: trail) [p'] := by
  refine ⟨h.inStep.parked, ?_, ?_, h.inStep.held, ?_⟩
  · intro x hx
    obtain rfl : p' = x := Option.some.inj hx
    rw [hsucc.parent]
    exact (Table.containsKey_iff _ _).mpr ⟨_, h.inStep.held.held p (by simp)⟩
  · intro x hx
    obtain rfl : p' = x := Option.some.inj hx
    exact h.follows p' hsucc hlacks
  · have hchain := h.inStep.chain
    rw [List.append_nil] at hchain
    rw [List.isChain_append]
    refine ⟨hchain, .singleton _, fun x hx y hy => ?_⟩
    obtain rfl : p = x := by simpa using hx
    obtain rfl : p' = y := by simpa using hy
    exact hsucc

theorem Settled.wait (h : c.Settled P p trail) (hnone : input.2.proposal? = none) :
    (c.next P input).Settled P p trail := by
  have hsame := sameSafety_of_parked_eq_none (P := P) h.inStep.parked hnone
  refine ⟨(h.inStep.wait hnone).1, fun p' hsucc hlacks => (h.follows p' hsucc ?_).same hsame⟩
  unfold HotStuffState.Lacks at hlacks ⊢
  rwa [hsame.pendingBlocks] at hlacks

theorem InStep.settle (h : c.InStep P trail [p])
    (hp : input.2.proposal?.map Signed.payload = some p)
    (hroom : c.state.HasRoomFor P p.block) : (c.next P input).Settled P p trail := by
  obtain ⟨-, hsame, -⟩ := h.accepts hp
  obtain ⟨q, hq⟩ := (Table.containsKey_iff _ _).mp (h.known p rfl)
  refine ⟨(h.take hp hroom).1, fun p' hsucc hlacks => ?_⟩
  have hnew : ∀ k b, (c.state.acceptProposal P p).1.getPending k = some b →
      k ≠ p'.block.hash P ∧ b.header.parentHash ≠ p'.block.hash P := fun k b hb => by
    apply hlacks.getPending
    unfold getPending at hb ⊢
    rwa [hsame.pendingBlocks]
  have hdistinct : ([p'].map fun p => p.block.hash P).Nodup := List.nodup_singleton _
  refine ((h.ready p rfl).follow hroom hq hsucc ?_ ?_ hdistinct).same hsame
  · intro x hx
    obtain rfl := List.mem_singleton.mp hx
    by_contra hsome
    obtain ⟨b, hb⟩ := Option.ne_none_iff_exists'.mp hsome
    exact (hnew _ b hb).1 rfl
  · intro x hx k b hb
    obtain rfl := List.mem_singleton.mp hx
    exact (hnew k b hb).2

/-! ### Turns -/

variable {turn : ReplicaTurn}

theorem InStep.withProposedInView {coming : List Proposal} (h : c.InStep P trail coming)
    (view : ℕ) : (c.withProposedInView view).InStep P trail coming :=
  ⟨h.parked, h.known, h.ready, h.held, h.chain⟩

theorem Settled.withProposedInView (h : c.Settled P p trail) (view : ℕ) :
    (c.withProposedInView view).Settled P p trail :=
  ⟨h.inStep.withProposedInView view, h.follows⟩

/-- The proposal of a turn is neither a vote nor a commit. -/
theorem votes_serve : (c.serve P turn).2.filterMap Action.vote? =
      (c.step P turn.order turn.event).2.filterMap Action.vote? ∧
    (c.serve P turn).2.filterMap Action.committed? =
      (c.step P turn.order turn.event).2.filterMap Action.committed? := by
  rw [serve_eq]
  cases c.proposes P turn with
  | none => exact ⟨rfl, rfl⟩
  | some r => simp [List.filterMap_append, Action.vote?, Action.committed?]

end HotStuffCore

namespace Booth
variable {P : Primitives} {b : Booth} {p : Proposal} {trail : List Proposal} {turn : ReplicaTurn}
  {turns : List ReplicaTurn}

/-- The proposals that the turns deliver. -/
def handed (turns : List ReplicaTurn) : List Proposal :=
  HotStuffCore.delivered (turns.map ReplicaTurn.input)

theorem handed_cons : handed (turn :: turns) =
    (turn.event.proposal?.map Signed.payload).toList ++ handed turns := by
  unfold handed HotStuffCore.delivered
  rw [List.map_cons]
  cases h : turn.event.proposal?.map Signed.payload with
  | none => exact List.filterMap_cons_none h
  | some x => exact List.filterMap_cons_some h

theorem handed_append (turns turns' : List ReplicaTurn) :
    handed (turns ++ turns') = handed turns ++ handed turns' := by
  unfold handed HotStuffCore.delivered
  rw [List.map_append, List.filterMap_append]

theorem handed_cons_eq_nil :
    handed (turn :: turns) = [] ↔ turn.event.proposal? = none ∧ handed turns = [] := by
  rw [handed_cons, List.append_eq_nil_iff, Option.toList_eq_nil_iff, Option.map_eq_none_iff]

variable (P) in
/-- There is room for the block that the turn delivers. -/
def Fits (b : Booth) (turn : ReplicaTurn) : Prop := b.core.Fits P turn.input

instance : DecidablePred (b.Fits P) := fun turn =>
  inferInstanceAs (Decidable (b.core.Fits P turn.input))

theorem settled_serve (h : b.core.Settled P p trail) (hnone : turn.event.proposal? = none) :
    (b.serve P turn).core.Settled P p trail := by
  have hwaits : turn.input.2.proposal? = none := hnone
  obtain ⟨view, hcore⟩ := core_serve P b turn
  rw [hcore]
  exact (h.wait hwaits).withProposedInView view

theorem settled_run (h : b.core.Settled P p trail) (hturns : handed turns = []) :
    (run (serve P) b turns).core.Settled P p trail ∧
      (b.served P turns).filterMap Action.vote? = [] ∧
      (b.served P turns).filterMap Action.committed? = [] := by
  induction turns generalizing b with
  | nil => exact ⟨h, rfl, rfl⟩
  | cons turn turns ih =>
    obtain ⟨hnone, hturns⟩ := handed_cons_eq_nil.mp hturns
    have hwaits : turn.input.2.proposal? = none := hnone
    obtain ⟨-, hvotes, hcommits⟩ := h.inStep.wait (P := P) hwaits
    obtain ⟨hrun, hvotes', hcommits'⟩ := ih (settled_serve h hnone) hturns
    refine ⟨hrun, ?_, ?_⟩
    · rw [served, List.filterMap_append, hvotes', HotStuffCore.votes_serve.1, List.append_nil]
      exact hvotes
    · rw [served, List.filterMap_append, hcommits', HotStuffCore.votes_serve.2, List.append_nil]
      exact hcommits

/-- A round of one replica: it votes for the proposal, and may commit. -/
theorem settled_of_inStep (h : b.core.InStep P trail [p]) (hturns : handed turns = [p])
    (hfits : Along (serve P) (Fits P) b turns) :
    (run (serve P) b turns).core.Settled P p trail ∧
      (b.served P turns).filterMap Action.vote? = [p.vote P] ∧
      ∃ c : HotStuffCore, c.InStep P trail [p] ∧ c.state.HasRoomFor P p.block ∧
        (b.served P turns).filterMap Action.committed? = (c.state.commits P p).toList := by
  induction turns generalizing b with
  | nil => cases hturns
  | cons turn turns ih =>
    obtain ⟨hfit, hfits⟩ := hfits
    obtain ⟨view, hcore⟩ := core_serve P b turn
    rw [handed_cons] at hturns
    simp only [served, List.filterMap_append, HotStuffCore.votes_serve.1,
      HotStuffCore.votes_serve.2, run_cons]
    cases hp : turn.event.proposal? with
    | none =>
      rw [hp] at hturns
      have hwaits : turn.input.2.proposal? = none := hp
      obtain ⟨hnext, hvotes, hcommits⟩ := h.wait hwaits
      have hserved : (b.serve P turn).core.InStep P trail [p] := by
        rw [hcore]
        exact hnext.withProposedInView view
      obtain ⟨hrun, hvotes', c, hc, hroom, hcommits'⟩ := ih hserved hturns hfits
      refine ⟨hrun, ?_, c, hc, hroom, ?_⟩
      · rw [hvotes']
        exact (congrArg (· ++ _) hvotes).trans (List.nil_append _)
      · rw [hcommits']
        exact (congrArg (· ++ _) hcommits).trans (List.nil_append _)
    | some signed =>
      rw [hp] at hturns
      obtain ⟨rfl, hrest⟩ := List.cons.inj hturns
      have hroom := hfit signed hp
      have hmap : turn.input.2.proposal?.map Signed.payload = some signed.payload := by
        show turn.event.proposal?.map Signed.payload = _
        rw [hp]
        rfl
      obtain ⟨-, hvotes, hcommits⟩ := h.take hmap hroom
      have hsettled : (b.serve P turn).core.Settled P signed.payload trail := by
        rw [hcore]
        exact (h.settle hmap hroom).withProposedInView view
      obtain ⟨hrun, hvotes', hcommits'⟩ := settled_run hsettled hrest
      refine ⟨hrun, ?_, b.core, h, hroom, ?_⟩
      · rw [hvotes', List.append_nil]
        exact hvotes
      · rw [hcommits', List.append_nil]
        exact hcommits

end Booth

/-- Two lots of validators of more than two thirds of the weight have one in common. -/
theorem ValidatorSet.Outweighs.exists_common {vs : ValidatorSet} {ids ids' : List ValidatorId}
    (h : vs.Outweighs ids) (h' : vs.Outweighs ids') : ∃ id ∈ ids, id ∈ ids' := by
  by_contra hnone
  push Not at hnone
  have hdisjoint : Disjoint ids.toFinset ids'.toFinset := by
    rw [Finset.disjoint_left]
    intro id hid hid'
    exact hnone id (List.mem_toFinset.mp hid) (List.mem_toFinset.mp hid')
  have hsum := Finset.sum_union (f := fun id => (vs.weightFor id).getD 0) hdisjoint
  have hle := vs.heldBy_le (ids ++ ids')
  rw [vs.heldBy_eq_sum, List.toFinset_append, hsum] at hle
  unfold ValidatorSet.Outweighs at h h'
  omega

/-- Only members weigh. -/
theorem ValidatorSet.Outweighs.mono {vs : ValidatorSet} {ids ids' : List ValidatorId}
    (h : vs.Outweighs ids) (hsub : ∀ id ∈ ids, vs.contains id = true → id ∈ ids') :
    vs.Outweighs ids' := by
  have hle : ∑ id ∈ ids.toFinset, (vs.weightFor id).getD 0 ≤
      ∑ id ∈ ids'.toFinset, (vs.weightFor id).getD 0 := by
    refine Finset.sum_le_sum_of_ne_zero fun id hid hne => List.mem_toFinset.mpr ?_
    refine hsub id (List.mem_toFinset.mp hid) ?_
    unfold contains
    cases hi : vs.indexOf id with
    | none => simp [weightFor, hi] at hne
    | some i => rfl
  unfold ValidatorSet.Outweighs at h ⊢
  omega

namespace Booth
variable {P : Primitives} {b : Booth} {p : Proposal} {turn : ReplicaTurn}
  {input : IterOrder × Event}

/-! ### What has been said -/

/-- The vote tables of the booth hold, of the live validators, what they have said. -/
def Records (live : List ValidatorId) (said : ValidatorId → List Vote) (b : Booth) : Prop :=
  ∀ id ∈ live, ∀ view hash, b.core.voteDedupe.get? (view, id) = some hash →
    ⟨view, hash⟩ ∈ said id

/-- A vote that the event hands over, if a live validator has signed it, was said by it. -/
def Authentic (live : List ValidatorId) (said : ValidatorId → List Vote) : Event → Prop
  | .voteReceived variant => variant.signed.signerValidatorId ∈ live →
    variant.signed.value.payload ∈ said variant.signed.signerValidatorId
  | _ => True

instance (live : List ValidatorId) (said : ValidatorId → List Vote) :
    DecidablePred (Authentic live said)
  | .voteReceived _ => inferInstanceAs (Decidable (_ → _))
  | .proposalReceived _ | .newViewReceived _ | .pacemakerAdvance _ =>
    inferInstanceAs (Decidable True)

theorem ousts_of_advance {k : ℕ × BlockHash} {v : ℕ} (hevent : input.2 = .pacemakerAdvance v)
    (hlt : k.1 < v) : b.Ousts k input := by
  obtain ⟨order, event⟩ := input
  subst hevent
  exact hlt

theorem forms_of_recorded {variant : VoteVariant} {qc : QuorumCertificate}
    (hevent : input.2 = .voteReceived variant)
    (hqc : (b.core.recordVote P variant).2.2 = some qc) :
    b.Forms P (qc.view, qc.blockHash) input := by
  obtain ⟨order, event⟩ := input
  subst hevent
  exact ⟨qc, hqc, rfl⟩

theorem proposal?_of_votesFor {k : ℕ × BlockHash} (h : b.votesFor k input ≠ []) :
    input.2.proposal? = none := by
  obtain ⟨order, event⟩ := input
  cases event with
  | proposalReceived verified => exact absurd rfl h
  | _ => rfl

theorem voteDedupe_hear {k : ℕ × ValidatorId} {hash : BlockHash}
    (h : (b.hear P input).core.voteDedupe.get? k = some hash) :
    b.core.voteDedupe.get? k = some hash ∨ ∃ variant, input.2 = .voteReceived variant ∧
      (variant.signed.value.payload.view, variant.signed.signerValidatorId) = k ∧
        variant.signed.value.payload.blockHash = hash := by
  obtain ⟨order, event⟩ := input
  change (b.core.step P order event).1.voteDedupe.get? k = some hash at h
  rw [(HotStuffCore.sameVotes_step P b.core order event).voteDedupe] at h
  cases event with
  | proposalReceived verified => exact .inl h
  | newViewReceived verified => exact .inl h
  | pacemakerAdvance v => exact .inl (Table.get?_of_retain h)
  | voteReceived variant =>
    change (b.core.recordVote P variant).1.voteDedupe.get? k = some hash at h
    rcases HotStuffCore.recordVote_cases P b.core variant with ⟨-, i, hrecorded⟩ | ⟨-, hsame, -⟩
    · rw [hrecorded.dedupe] at h
      split_ifs at h with hk
      · exact .inr ⟨variant, rfl, hk.symm, Option.some.inj h⟩
      · exact .inl h
    · rw [hsame] at h
      exact .inl h

theorem Records.hear {live : List ValidatorId} {said : ValidatorId → List Vote}
    (h : b.Records live said) (hauthentic : Authentic live said input.2) :
    (b.hear P input).Records live said := by
  intro id hid view hash hget
  rcases voteDedupe_hear hget with hold | ⟨variant, hevent, hkey, hhash⟩
  · exact h id hid view hash hold
  · obtain ⟨rfl, rfl⟩ := Prod.mk.inj hkey
    subst hhash
    rw [hevent] at hauthentic
    exact hauthentic hid

/-- The voters of a block that outweigh the others are not without a live validator. -/
theorem said_of_outweighs {live : List ValidatorId} {said : ValidatorId → List Vote}
    {k : ℕ × BlockHash} (hbuckets : BucketsOk b) (hrecords : b.Records live said)
    (hquorate : (b.setAt k.1).Outweighs live) (h : (b.setAt k.1).Outweighs (b.votersOf k)) :
    ∃ id ∈ live, ⟨k.1, k.2⟩ ∈ said id := by
  obtain ⟨id, hid, hvoter⟩ := hquorate.exists_common h
  unfold votersOf at hvoter
  split_ifs at hvoter with hkey
  · obtain ⟨qc, hqc⟩ := (Table.containsKey_iff _ _).mp hkey
    exact ⟨id, hid, hrecords id hid k.1 k.2 ((hbuckets.bucket k qc hqc).members id hvoter).1⟩
  · cases hvoter

end Booth

/-- The view and the block that the votes for the proposal are for. -/
def Proposal.key (P : Primitives) (p : Proposal) : ℕ × BlockHash :=
  (p.block.header.view, p.block.hash P)

/-- The certificate is of an earlier view, or for the proposal. -/
def Proposal.Covers (P : Primitives) (p : Proposal) (qc : QuorumCertificate) : Prop :=
  qc.view < p.block.header.view ∨ qc.view = p.block.header.view ∧ qc.blockHash = p.block.hash P

/-- The live validators have voted in earlier views, and for the proposal. -/
def SaidUpTo (P : Primitives) (live : List ValidatorId) (said : ValidatorId → List Vote)
    (p : Proposal) : Prop :=
  ∀ id ∈ live, ∀ vote ∈ said id, vote.view < p.block.header.view ∨ vote = p.vote P

/-- The view that the event enters. -/
def Event.entered? : Event → Option ℕ
  | .pacemakerAdvance w => some w
  | _ => none

/-- What a turn of a round may bring: votes that were said, certificates with the vote of a live
validator, and no view after the next. -/
structure ReplicaTurn.Fair (live : List ValidatorId) (said : ValidatorId → List Vote) (p : Proposal)
    (turn : ReplicaTurn) : Prop where
  authentic : Booth.Authentic live said turn.event
  backed : ∀ qc ∈ HotStuffCore.bringsQcs turn.event, qc.view < p.block.header.view ∨
    ∃ id ∈ live, ⟨qc.view, qc.blockHash⟩ ∈ said id
  entered : ∀ w ∈ turn.event.entered?, w ≤ p.block.header.view + 1

instance (live : List ValidatorId) (said : ValidatorId → List Vote) (p : Proposal) :
    DecidablePred (ReplicaTurn.Fair live said p) := fun turn =>
  decidable_of_iff (Booth.Authentic live said turn.event ∧
      (∀ qc ∈ HotStuffCore.bringsQcs turn.event, qc.view < p.block.header.view ∨
        ∃ id ∈ live, ⟨qc.view, qc.blockHash⟩ ∈ said id) ∧
      ∀ w ∈ turn.event.entered?, w ≤ p.block.header.view + 1)
    ⟨fun h => ⟨h.1, h.2.1, h.2.2⟩, fun h => ⟨h.1, h.2, h.3⟩⟩

namespace Booth

/-- A booth in the round of the proposal. -/
structure InRound (P : Primitives) (live : List ValidatorId) (said : ValidatorId → List Vote)
    (p : Proposal) (b : Booth) : Prop where
  buckets : BucketsOk b
  quorate : ∀ view, (b.setAt view).Outweighs live
  records : b.Records live said
  keeps : b.core.Keeps (p.Covers P)
  proposed : b.core.proposedInView ≤ p.block.header.view + 1

variable {P : Primitives} {live : List ValidatorId} {said : ValidatorId → List Vote}
  {p : Proposal} {b : Booth} {turn : ReplicaTurn}

theorem covers_of_said (hsaid : SaidUpTo P live said p) {qc : QuorumCertificate}
    (h : ∃ id ∈ live, ⟨qc.view, qc.blockHash⟩ ∈ said id) : p.Covers P qc := by
  obtain ⟨id, hid, hvote⟩ := h
  rcases hsaid id hid _ hvote with hlt | heq
  · exact .inl hlt
  · obtain ⟨hview, hhash⟩ := Vote.mk.inj heq
    exact .inr ⟨hview, hhash⟩

theorem addU64_one_le (v : ℕ) : addU64 v 1 ≤ v + 1 := Nat.mod_le _ _

namespace InRound
variable (h : InRound P live said p b) (hsaid : SaidUpTo P live said p)
  (hfair : turn.Fair live said p)

include h hfair in
theorem hear : BucketsOk (b.hear P turn.input) ∧
    (∀ view, ((b.hear P turn.input).setAt view).Outweighs live) ∧
      (b.hear P turn.input).Records live said := by
  refine ⟨bucketsOk_hear h.buckets turn.input, fun view => ?_, h.records.hear hfair.authentic⟩
  rw [setAt_hear]
  exact h.quorate view

include h hsaid hfair in
/-- No block but that of the proposal, or of an earlier view, gets a quorum. -/
theorem covers_of_outweighs {k : ℕ × BlockHash}
    (hk : (b.setAt k.1).Outweighs ((b.hear P turn.input).votersOf k)) :
    k.1 < p.block.header.view ∨ k = p.key P := by
  obtain ⟨hbuckets, hquorate, hrecords⟩ := h.hear hfair
  rw [← setAt_hear (P := P) turn.input] at hk
  obtain ⟨id, hid, hvote⟩ := said_of_outweighs hbuckets hrecords (hquorate k.1) hk
  rcases hsaid id hid _ hvote with hlt | heq
  · exact .inl hlt
  · obtain ⟨hview, hhash⟩ := Vote.mk.inj heq
    exact .inr (Prod.ext hview hhash)

include h hsaid hfair in
theorem prompted_le {w : ℕ} (hp : b.Prompts P w turn.input) : w ≤ p.block.header.view + 1 := by
  rcases hp with hevent | ⟨k, rfl, -, -, hk⟩
  · exact hfair.entered w (congrArg Event.entered? hevent)
  · have hle : k.1 ≤ p.block.header.view := by
      rcases h.covers_of_outweighs hsaid hfair hk with hlt | rfl
      · exact hlt.le
      · exact Nat.le_refl _
    have hmod := addU64_one_le k.1
    omega

include h hsaid hfair in
theorem keeps_hear : (b.hear P turn.input).core.Keeps (p.Covers P) := by
  have hbrings : ∀ qc ∈ HotStuffCore.bringsQcs turn.event, p.Covers P qc := fun qc hqc => by
    rcases hfair.backed qc hqc with hlt | hsome
    · exact .inl hlt
    · exact covers_of_said hsaid hsome
  show (b.core.step P turn.order turn.event).1.Keeps _
  refine (h.keeps.step hbrings fun variant hevent qc hqc => ?_).1
  have hforms : b.Forms P (qc.view, qc.blockHash) turn.input := forms_of_recorded hevent hqc
  have hheavy := ((forms_iff h.buckets).mp hforms).2.2
  rcases h.covers_of_outweighs hsaid hfair hheavy with hlt | heq
  · exact .inl hlt
  · exact .inr (Prod.mk.inj heq)

include h hsaid hfair in
theorem serve : InRound P live said p (b.serve P turn) := by
  obtain ⟨hbuckets, hquorate, hrecords⟩ := h.hear hfair
  obtain ⟨view, hcore⟩ := core_serve P b turn
  have hkeeps := h.keeps_hear hsaid hfair
  refine ⟨bucketsOk_serve h.buckets, fun view => ?_, ?_, ?_, ?_⟩
  · rw [setAt_serve]
    exact h.quorate view
  · intro id hid view hash hget
    rw [hcore] at hget
    exact hrecords id hid view hash hget
  · rw [hcore]
    exact ⟨hkeeps.high, hkeeps.parked⟩
  · rw [proposedInView_serve]
    cases hp : b.core.proposes P turn with
    | none => exact h.proposed
    | some r =>
      obtain ⟨w, q⟩ := r
      have hcalled := (proposes_iff h.buckets (.singleton _) w q).mp hp
      exact h.prompted_le hsaid hfair hcalled.prompted

end InRound

/-- The node builds what it is asked for: a block of that view on that parent. -/
def Builds (P : Primitives) (b : Booth) (turn : ReplicaTurn) : Prop :=
  ∀ r ∈ b.core.requested P turn.input, turn.built.any fun block =>
    block.header.view = r.1 ∧ block.header.parentHash = r.2.2.hash P ∧
      r.2.2.header.height < block.header.height

instance : DecidablePred (b.Builds P) := fun turn =>
  inferInstanceAs (Decidable (∀ r ∈ b.core.requested P turn.input, _))

theorem Builds.proposes (h : b.Builds P turn) {w : ℕ} {q : Proposal}
    (hq : b.core.proposes P turn = some (w, q)) : q.block.header.view = w ∧
      ∃ parent, (b.hear P turn.input).core.tip = some (q.justify, parent) ∧
        q.block.header.parentHash = parent.hash P ∧
          parent.header.height < q.block.header.height := by
  obtain ⟨r, hr, hpair⟩ := Option.bind_eq_some_iff.mp hq
  obtain ⟨block, hblock, heq⟩ := Option.map_eq_some_iff.mp hpair
  have hbuilds := h r hr
  rw [hblock, Option.any_some, decide_eq_true_eq] at hbuilds
  obtain ⟨rfl, rfl⟩ := Prod.mk.inj heq
  obtain ⟨w', -, hr⟩ := Option.bind_eq_some_iff.mp hr
  split_ifs at hr
  obtain ⟨t, ht, rfl⟩ := Option.map_eq_some_iff.mp hr
  exact ⟨hbuilds.1, t.2, ht, hbuilds.2⟩

/-! ### The next leader -/

namespace InRound
variable (h : InRound P live said p b) (hsaid : SaidUpTo P live said p)
  (hfair : turn.Fair live said p) (hstays : ¬ b.Ousts (p.key P) turn.input)

include h hsaid hfair hstays in
/-- Until the quorum is complete nothing prompts the leader of the next view. -/
theorem proposes_before {w : ℕ} {q : Proposal}
    (hnot : ¬ (b.setAt (p.key P).1).Outweighs ((b.hear P turn.input).votersOf (p.key P)))
    (hq : b.core.proposes P turn = some (w, q)) : w ≤ p.block.header.view := by
  have hcalled := (proposes_iff h.buckets (.singleton _) w q).mp hq
  rcases hcalled.prompted with hevent | ⟨k, rfl, -, -, hk⟩
  · exact Nat.le_of_not_lt fun hlt => hstays (ousts_of_advance hevent hlt)
  · rcases h.covers_of_outweighs hsaid hfair hk with hlt | rfl
    · have hmod := addU64_one_le k.1
      omega
    · exact absurd hk hnot

include h hsaid hfair in
/-- Nothing prompts it once it has proposed. -/
theorem proposes_after (hdone : b.core.proposedInView = p.block.header.view + 1) :
    b.core.proposes P turn = none := by
  cases hq : b.core.proposes P turn with
  | none => rfl
  | some r =>
    have hcalled := (proposes_iff h.buckets (.singleton _) r.1 r.2).mp hq
    have hle := h.prompted_le hsaid hfair hcalled.prompted
    have hfirst := hcalled.first _ (List.mem_singleton_self _)
    omega

include h hsaid hfair in
/-- Once the quorum is complete the high certificate is for the proposal, and its block is there. -/
theorem tip_of_forms {trail : List Proposal} (hsettled : b.core.Settled P p trail)
    (hforms : b.Forms P (p.key P) turn.input) :
    ∃ qc : QuorumCertificate, (b.core.next P turn.input).tip = some (qc, p.block) ∧
      qc.view = p.block.header.view ∧ qc.blockHash = p.block.hash P := by
  have hvotes := ((forms_iff h.buckets).mp hforms).1
  obtain ⟨qc, hqc, hle⟩ := highQc_hear_of_forms hforms
  have hcovers := (h.keeps_hear hsaid hfair).high qc hqc
  have hkey : qc.view = p.block.header.view ∧ qc.blockHash = p.block.hash P :=
    hcovers.resolve_left (Nat.not_lt.mpr hle)
  have hhigh : (b.core.next P turn.input).state.highQc = some qc := hqc
  have hheld : (b.core.next P turn.input).state.pendingBlocks.get? (p.block.hash P) =
      some p.block :=
    (hsettled.wait (proposal?_of_votesFor hvotes)).inStep.held.held p (by simp)
  refine ⟨qc, ?_, hkey⟩
  unfold HotStuffCore.tip
  rw [hhigh, Option.bind_some, hkey.2, hheld]
  rfl

include h hsaid hfair hstays in
/-- The vote that completes the quorum makes the next leader propose, if it has the block. -/
theorem proposes_now {trail : List Proposal} (hbuilds : b.Builds P turn)
    (hsettled : b.core.Settled P p trail) (hfits : p.block.header.view + 1 < 2 ^ 64)
    (hleads : roundRobinLeader (b.setAt (p.block.header.view + 1)) (p.block.header.view + 1) =
      some b.core.selfId)
    (hproposed : b.core.proposedInView ≤ p.block.header.view)
    (hnot : ¬ (b.setAt (p.key P).1).Outweighs (b.votersOf (p.key P)))
    (hnow : (b.setAt (p.key P).1).Outweighs ((b.hear P turn.input).votersOf (p.key P))) :
    ∃ q, b.core.proposes P turn = some (p.block.header.view + 1, q) ∧ p.Succeeds P q := by
  have hvotes : b.votesFor (p.key P) turn.input ≠ [] := fun hnone => by
    rw [votersOf_hear.1 hstays, hnone, List.nil_append] at hnow
    exact hnot hnow
  have hforms : b.Forms P (p.key P) turn.input := (forms_iff h.buckets).mpr ⟨hvotes, hnot, hnow⟩
  obtain ⟨qc, htip, hkey⟩ := h.tip_of_forms hsaid hfair hsettled hforms
  have hnext : addU64 (p.key P).1 1 = p.block.header.view + 1 := Nat.mod_eq_of_lt hfits
  have hprompts : b.Prompts P (p.block.header.view + 1) turn.input :=
    .inr ⟨p.key P, hnext.symm, hvotes, hnot, hnow⟩
  have hasks : b.core.requested P turn.input = some (p.block.header.view + 1, qc, p.block) := by
    have hmay : (b.core.next P turn.input).MayPropose (p.block.header.view + 1) :=
      (mayPropose_hear P b turn.input _).mpr ⟨hleads, Nat.lt_succ_of_le hproposed⟩
    unfold HotStuffCore.requested
    rw [(prompts_iff h.buckets _).mp hprompts, Option.bind_some, if_pos hmay, htip]
    rfl
  have hbuilt := hbuilds _ hasks
  obtain ⟨block, hblock, hgood⟩ := Option.any_eq_true _ _ |>.mp hbuilt
  rw [decide_eq_true_eq] at hgood
  refine ⟨⟨block, qc⟩, ?_, hgood.2.1, hkey.2, hkey.1, hgood.1, ?_, hgood.2.2⟩
  · unfold HotStuffCore.proposes
    rw [hasks, hblock]
    rfl
  · show block.header.view < 2 ^ 64
    rw [hgood.1]
    exact hfits

end InRound

/-- The proposals for a view among the actions. -/
def sentIn (view : ℕ) (actions : List Action) : List Proposal :=
  (actions.filterMap Action.proposal?).filter fun q => q.block.header.view = view

theorem sentIn_append (view : ℕ) (actions actions' : List Action) :
    sentIn view (actions ++ actions') = sentIn view actions ++ sentIn view actions' := by
  rw [sentIn, List.filterMap_append, List.filter_append, sentIn, sentIn]

theorem sentIn_serve (view : ℕ) : sentIn view (b.core.serve P turn).2 =
    ((b.core.proposes P turn).map Prod.snd).toList.filter fun q => q.block.header.view = view := by
  rw [sentIn, (HotStuffCore.proposals_serve P b.core turn).1]

/-- A turn of the next leader: it brings what it may, it does not throw out the votes for the
proposal, and the node builds what it is asked for. -/
structure Tended (P : Primitives) (live : List ValidatorId) (said : ValidatorId → List Vote)
    (p : Proposal) (b : Booth) (turn : ReplicaTurn) : Prop where
  fair : turn.Fair live said p
  builds : b.Builds P turn
  stays : ¬ b.Ousts (p.key P) turn.input

variable {turns : List ReplicaTurn}

theorem votersOf_serve (k : ℕ × BlockHash) :
    (b.serve P turn).votersOf k = (b.hear P turn.input).votersOf k := by
  obtain ⟨view, hcore⟩ := core_serve P b turn
  unfold votersOf
  rw [hcore]
  rfl

/-- Voters stay as long as nothing throws them out. -/
theorem votersOf_sub_run
    (hstays : Along (serve P) (fun b turn => ¬ b.Ousts (p.key P) turn.input) b turns) :
    b.votersOf (p.key P) ⊆ (run (serve P) b turns).votersOf (p.key P) := by
  induction turns generalizing b with
  | nil => exact List.Subset.refl _
  | cons turn turns ih =>
    refine List.Subset.trans ?_ (ih hstays.2)
    rw [votersOf_serve, votersOf_hear.1 hstays.1]
    exact List.subset_append_right _ _

theorem setAt_run (view : ℕ) : (run (serve P) b turns).setAt view = b.setAt view := by
  induction turns generalizing b with
  | nil => rfl
  | cons turn turns ih => rw [run_cons, ih, setAt_serve]

theorem selfId_run : (run (serve P) b turns).core.selfId = b.core.selfId := by
  induction turns generalizing b with
  | nil => rfl
  | cons turn turns ih => rw [run_cons, ih, selfId_serve]

theorem inRound_run (hsaid : SaidUpTo P live said p) (h : InRound P live said p b)
    (hfair : ∀ turn ∈ turns, turn.Fair live said p) :
    InRound P live said p (run (serve P) b turns) := by
  induction turns generalizing b with
  | nil => exact h
  | cons turn turns ih =>
    exact ih (h.serve hsaid (hfair turn (List.mem_cons_self ..)))
      fun t ht => hfair t (List.mem_cons_of_mem _ ht)

/-- Once the leader has proposed, it does not propose again in the round. -/
theorem after_run (hsaid : SaidUpTo P live said p) (h : InRound P live said p b)
    (hdone : b.core.proposedInView = p.block.header.view + 1)
    (htended : Along (serve P) (Tended P live said p) b turns) (view : ℕ) :
    sentIn view (b.served P turns) = [] := by
  induction turns generalizing b with
  | nil => rfl
  | cons turn turns ih =>
    have hfair := htended.1.fair
    have hnone := h.proposes_after hsaid hfair hdone
    have hdone' : (b.serve P turn).core.proposedInView = p.block.header.view + 1 := by
      rw [proposedInView_serve, hnone]
      exact hdone
    rw [served, sentIn_append, ih (h.serve hsaid hfair) hdone' htended.2, sentIn_serve, hnone]
    rfl

/-- Until the quorum is complete the leader proposes in no later view than that of the round. -/
theorem before_turn (hsaid : SaidUpTo P live said p) (h : InRound P live said p b)
    (hproposed : b.core.proposedInView ≤ p.block.header.view)
    (htended : b.Tended P live said p turn)
    (hnot : ¬ (b.setAt (p.key P).1).Outweighs ((b.hear P turn.input).votersOf (p.key P))) :
    (b.serve P turn).core.proposedInView ≤ p.block.header.view ∧
      sentIn (p.block.header.view + 1) (b.core.serve P turn).2 = [] := by
  rw [proposedInView_serve, sentIn_serve]
  cases hq : b.core.proposes P turn with
  | none => exact ⟨hproposed, rfl⟩
  | some r =>
    have hle := h.proposes_before hsaid htended.fair htended.stays hnot hq
    have hbuilt := (htended.builds.proposes hq).1
    refine ⟨hle, ?_⟩
    have hne : ¬ r.2.block.header.view = p.block.header.view + 1 := by
      rw [hbuilt]
      omega
    simp [hne]

theorem before_run (hsaid : SaidUpTo P live said p) (h : InRound P live said p b)
    (hproposed : b.core.proposedInView ≤ p.block.header.view)
    (htended : Along (serve P) (Tended P live said p) b turns)
    (hnot : ¬ (b.setAt (p.key P).1).Outweighs ((run (serve P) b turns).votersOf (p.key P))) :
    (run (serve P) b turns).core.proposedInView ≤ p.block.header.view ∧
      sentIn (p.block.header.view + 1) (b.served P turns) = [] := by
  induction turns generalizing b with
  | nil => exact ⟨hproposed, rfl⟩
  | cons turn turns ih =>
    have hstays := htended.2.mono fun b turn (ht : b.Tended P live said p turn) => ht.stays
    have hfirst : ¬ (b.setAt (p.key P).1).Outweighs
        ((b.hear P turn.input).votersOf (p.key P)) := fun hheavy => by
      rw [← votersOf_serve] at hheavy
      exact hnot (hheavy.mono fun id hid _ => votersOf_sub_run hstays hid)
    obtain ⟨hview, hsent⟩ := before_turn hsaid h hproposed htended.1 hfirst
    rw [← setAt_serve P b turn] at hnot
    obtain ⟨hviews, hsents⟩ := ih (h.serve hsaid htended.1.fair) hview htended.2 hnot
    refine ⟨hviews, ?_⟩
    rw [served, sentIn_append, hsent, hsents]
    rfl

/-- A leader that has the block and is handed the rest of the quorum proposes once. -/
theorem proposes_run (hsaid : SaidUpTo P live said p) (h : InRound P live said p b)
    {trail : List Proposal} (hsettled : b.core.Settled P p trail) (hhanded : handed turns = [])
    (hfits : p.block.header.view + 1 < 2 ^ 64)
    (hleads : roundRobinLeader (b.setAt (p.block.header.view + 1)) (p.block.header.view + 1) =
      some b.core.selfId)
    (hproposed : b.core.proposedInView ≤ p.block.header.view)
    (htended : Along (serve P) (Tended P live said p) b turns)
    (hnot : ¬ (b.setAt (p.key P).1).Outweighs (b.votersOf (p.key P)))
    (hend : (b.setAt (p.key P).1).Outweighs ((run (serve P) b turns).votersOf (p.key P))) :
    ∃ q, sentIn (p.block.header.view + 1) (b.served P turns) = [q] ∧ p.Succeeds P q := by
  induction turns generalizing b with
  | nil => exact absurd hend hnot
  | cons turn turns ih =>
    obtain ⟨hnone, hrest⟩ := handed_cons_eq_nil.mp hhanded
    have hsettled' := settled_serve hsettled hnone
    have hnext := h.serve hsaid htended.1.fair
    rw [served]
    simp only [sentIn_append]
    by_cases hnow : (b.setAt (p.key P).1).Outweighs ((b.hear P turn.input).votersOf (p.key P))
    · obtain ⟨q, hq, hsucc⟩ := h.proposes_now hsaid htended.1.fair htended.1.stays htended.1.builds
        hsettled hfits hleads hproposed hnot hnow
      have hdone : (b.serve P turn).core.proposedInView = p.block.header.view + 1 := by
        rw [proposedInView_serve, hq]
        rfl
      refine ⟨q, ?_, hsucc⟩
      rw [after_run hsaid hnext hdone htended.2, sentIn_serve, hq, List.append_nil]
      simp [hsucc.view]
    · obtain ⟨hview, hsent⟩ := before_turn hsaid h hproposed htended.1 hnow
      rw [hsent, List.nil_append]
      refine ih hnext hsettled' hrest ?_ hview htended.2 ?_ ?_
      · rw [setAt_serve, selfId_serve]
        exact hleads
      · rwa [setAt_serve, votersOf_serve]
      · rwa [setAt_serve]

end Booth

/-! ### The network -/

/-- The replicas of the validators, and what each has voted for. -/
structure RoundNet where
  booths : ValidatorId → Booth
  said : ValidatorId → List Vote

/-- What each validator is given in a round. -/
abbrev ViewRound := ValidatorId → List ReplicaTurn

namespace RoundNet

def acts (P : Primitives) (net : RoundNet) (round : ViewRound) (id : ValidatorId) : List Action :=
  (net.booths id).served P (round id)

def play (P : Primitives) (net : RoundNet) (round : ViewRound) : RoundNet where
  booths := fun id => run (Booth.serve P) (net.booths id) (round id)
  said := fun id => net.said id ++ (net.acts P round id).filterMap Action.vote?

/-- What the leader of the view proposes for it in the round. -/
def sent (P : Primitives) (history : ValidatorSetHistory) (net : RoundNet) (round : ViewRound)
    (view : ℕ) : List Proposal :=
  (roundRobinLeader (history.setAt view) view).elim [] fun leader =>
    Booth.sentIn view (net.acts P round leader)

/-- All actions of a validator in the rounds. -/
def allActs (P : Primitives) : RoundNet → List ViewRound → ValidatorId → List Action
  | _, [], _ => []
  | net, round :: rounds, id => net.acts P round id ++ (net.play P round).allActs P rounds id

end RoundNet

/-- The turn hands over the vote of the validator. -/
def ReplicaTurn.HandsVote (turn : ReplicaTurn) (vote : Vote) (id : ValidatorId) : Prop :=
  match turn.event with
  | .voteReceived variant =>
    variant.signed.signerValidatorId = id ∧ variant.signed.value.payload = vote
  | _ => False

instance (vote : Vote) (id : ValidatorId) : ∀ turn : ReplicaTurn, Decidable (turn.HandsVote vote id)
  | ⟨_, .voteReceived _, _⟩ => inferInstanceAs (Decidable (_ ∧ _))
  | ⟨_, .proposalReceived _, _⟩ | ⟨_, .newViewReceived _, _⟩ | ⟨_, .pacemakerAdvance _, _⟩ =>
    inferInstanceAs (Decidable False)

/-- The next leader takes part. It is handed the proposal before the quorum of votes for it, all
votes of the live validators among them, none of them is thrown out in the round, and its node
builds a block. -/
structure ViewRound.Led (P : Primitives) (live : List ValidatorId) (net : RoundNet) (p : Proposal)
    (round : ViewRound) (leader : ValidatorId) : Prop where
  mem : leader ∈ live
  builds : Along (Booth.serve P) (Booth.Builds P) (net.booths leader) (round leader)
  stays : Along (Booth.serve P) (fun b turn => ¬ b.Ousts (p.key P) turn.input)
    (net.booths leader) (round leader)
  votes : ∀ id ∈ live, ∃ turn ∈ round leader, turn.HandsVote (p.vote P) id
  early : ∃ early late, round leader = early ++ late ∧ Booth.handed early = [p] ∧
    ¬ ((net.booths leader).setAt p.block.header.view).Outweighs
      ((run (Booth.serve P) (net.booths leader) early).votersOf (p.key P))

/-- A round in time: every live validator is handed the proposal, with nothing but what the others
have said and no later view, and the next leader the votes. -/
structure ViewRound.Timely (P : Primitives) (history : ValidatorSetHistory)
    (live : List ValidatorId) (net : RoundNet) (p : Proposal) (round : ViewRound) : Prop where
  fair : ∀ id ∈ live, ∀ turn ∈ round id, turn.Fair live (net.play P round).said p
  handed : ∀ id ∈ live, Booth.handed (round id) = [p]
  fits : ∀ id ∈ live, Along (Booth.serve P) (Booth.Fits P) (net.booths id) (round id)
  view : p.block.header.view + 1 < 2 ^ 64
  led : ∃ leader, roundRobinLeader (history.setAt (p.block.header.view + 1))
    (p.block.header.view + 1) = some leader ∧ round.Led P live net p leader

theorem ViewRound.Timely.tended {P : Primitives} {history : ValidatorSetHistory}
    {live : List ValidatorId} {net : RoundNet} {p : Proposal} {round : ViewRound}
    (h : round.Timely P history live net p) {leader : ValidatorId}
    (hled : round.Led P live net p leader) :
    Along (Booth.serve P) (Booth.Tended P live (net.play P round).said p) (net.booths leader)
      (round leader) :=
  (((Along.of_forall (h.fair leader hled.mem)).and hled.builds).and hled.stays).mono
    fun _ _ ht => ⟨ht.1.1, ht.1.2, ht.2⟩

namespace RoundNet

/-- Rounds in time, each with the proposal that the round before has led to. -/
def Timely (P : Primitives) (history : ValidatorSetHistory) (live : List ValidatorId) :
    RoundNet → Proposal → List ViewRound → Prop
  | _, _, [] => True
  | net, p, round :: rounds => round.Timely P history live net p ∧
    ∀ q ∈ net.sent P history round (p.block.header.view + 1),
      (∀ id ∈ live, ((net.play P round).booths id).core.state.Lacks P q) ∧
        Timely P history live (net.play P round) q rounds

/-- In every round the leader of the next view sends one proposal for it, which succeeds that of the
round. -/
def Follow (P : Primitives) (history : ValidatorSetHistory) :
    RoundNet → Proposal → List ViewRound → List Proposal → Prop
  | _, _, [], qs => qs = []
  | _, _, _ :: _, [] => False
  | net, p, round :: rounds, q :: qs =>
    net.sent P history round (p.block.header.view + 1) = [q] ∧ p.Succeeds P q ∧
      Follow P history (net.play P round) q rounds qs

theorem Follow.length {P : Primitives} {history : ValidatorSetHistory} {net : RoundNet}
    {p : Proposal} {rounds : List ViewRound} {qs : List Proposal}
    (h : net.Follow P history p rounds qs) :
    qs.length = rounds.length := by
  induction rounds generalizing net p qs with
  | nil =>
    obtain rfl : qs = [] := h
    rfl
  | cons round rounds ih =>
    cases qs with
    | nil => exact h.elim
    | cons q qs => rw [List.length_cons, List.length_cons, ih h.2.2]

/-- The live validators wait for the proposal: none has heard of a certificate or a proposal of its
view, voted in it or counted a vote that was not cast. -/
structure Lined (P : Primitives) (history : ValidatorSetHistory) (live : List ValidatorId)
    (net : RoundNet) (p : Proposal) (trail : List Proposal) : Prop where
  buckets : ∀ id ∈ live, BucketsOk (net.booths id)
  setAt : ∀ id ∈ live, ∀ view, (net.booths id).setAt view = history.setAt view
  selfId : ∀ id ∈ live, (net.booths id).core.selfId = id
  records : ∀ id ∈ live, (net.booths id).Records live net.said
  high : ∀ id ∈ live, ∀ qc ∈ (net.booths id).core.state.highQc, qc.view < p.block.header.view
  proposed : ∀ id ∈ live, (net.booths id).core.proposedInView ≤ p.block.header.view
  inStep : ∀ id ∈ live, (net.booths id).core.InStep P trail [p]
  said : ∀ id ∈ live, ∀ vote ∈ net.said id, vote.view < p.block.header.view

section
variable {P : Primitives} {history : ValidatorSetHistory} {live : List ValidatorId} {net : RoundNet}
  {p : Proposal} {trail : List Proposal} {round : ViewRound}

/-- What a live validator does in a round: it takes the proposal and votes for it. -/
theorem Lined.settles (h : net.Lined P history live p trail)
    (hround : round.Timely P history live net p) {id : ValidatorId} (hid : id ∈ live) :
    ((net.play P round).booths id).core.Settled P p trail ∧
      (net.acts P round id).filterMap Action.vote? = [p.vote P] ∧
      ∃ c : HotStuffCore, c.InStep P trail [p] ∧ c.state.HasRoomFor P p.block ∧
        (net.acts P round id).filterMap Action.committed? = (c.state.commits P p).toList :=
  Booth.settled_of_inStep (h.inStep id hid) (hround.handed id hid) (hround.fits id hid)

theorem Lined.saidUpTo (h : net.Lined P history live p trail)
    (hround : round.Timely P history live net p) :
    SaidUpTo P live (net.play P round).said p := by
  intro id hid vote hvote
  rcases List.mem_append.mp hvote with hold | hnew
  · exact .inl (h.said id hid vote hold)
  · rw [(h.settles hround hid).2.1] at hnew
    exact .inr (List.mem_singleton.mp hnew)

theorem Lined.inRound (h : net.Lined P history live p trail)
    (hquorate : ∀ view, (history.setAt view).Outweighs live) (round : ViewRound) {id : ValidatorId}
    (hid : id ∈ live) :
    Booth.InRound P live (net.play P round).said p (net.booths id) where
  buckets := h.buckets id hid
  quorate := fun view => by
    rw [h.setAt id hid]
    exact hquorate view
  records := fun id' hid' view hash hget =>
    List.mem_append_left _ (h.records id hid id' hid' view hash hget)
  keeps := by
    refine ⟨fun qc hqc => .inl (h.high id hid qc hqc), fun hparked => ?_⟩
    rw [(h.inStep id hid).parked] at hparked
    cases hparked
  proposed := (h.proposed id hid).trans (Nat.le_succ _)

/-- A vote that is handed over reaches the bucket of the proposal. -/
theorem mem_votesFor {b : Booth} {said : ValidatorId → List Vote} {turn : ReplicaTurn}
    {id : ValidatorId} (h : b.InRound P live said p) (hsaid : SaidUpTo P live said p)
    (hid : id ∈ live)
    (hmember : (b.setAt p.block.header.view).contains id = true)
    (hturn : turn.HandsVote (p.vote P) id) : id ∈ b.votesFor (p.key P) turn.input := by
  obtain ⟨order, event, built⟩ := turn
  cases event with
  | voteReceived variant =>
    obtain ⟨hsigner, hvote⟩ := hturn
    have hdedupe : (b.core.voteDedupe.get? (p.block.header.view, id)).all
        (· = p.block.hash P) = true := by
      cases hd : b.core.voteDedupe.get? (p.block.header.view, id) with
      | none => rfl
      | some hash =>
        rcases hsaid id hid _ (h.records id hid _ _ hd) with hlt | heq
        · exact absurd hlt (Nat.lt_irrefl _)
        · simpa using (Vote.mk.inj heq).2
    have hreaches : b.core.reaches (p.vote P) id = true := by
      unfold HotStuffCore.reaches
      rw [Bool.and_eq_true]
      exact ⟨hmember, hdedupe⟩
    unfold Booth.votesFor ReplicaTurn.input
    simp only [hvote, hsigner]
    rw [if_pos ⟨rfl, hreaches⟩]
    exact List.mem_singleton_self _
  | proposalReceived _ => exact hturn.elim
  | newViewReceived _ => exact hturn.elim
  | pacemakerAdvance _ => exact hturn.elim

theorem mem_votersOf_run {b : Booth} {said : ValidatorId → List Vote} {turns : List ReplicaTurn}
    {id : ValidatorId} (h : b.InRound P live said p) (hsaid : SaidUpTo P live said p)
    (hfair : ∀ turn ∈ turns, turn.Fair live said p)
    (hstays : Along (Booth.serve P) (fun b turn => ¬ b.Ousts (p.key P) turn.input) b turns)
    (hid : id ∈ live) (hmember : (b.setAt p.block.header.view).contains id = true)
    (hvotes : ∃ turn ∈ turns, turn.HandsVote (p.vote P) id) :
    id ∈ (run (Booth.serve P) b turns).votersOf (p.key P) := by
  obtain ⟨turn, hturn, hvote⟩ := hvotes
  induction turns generalizing b with
  | nil => cases hturn
  | cons first turns ih =>
    rcases List.mem_cons.mp hturn with rfl | hlater
    · apply Booth.votersOf_sub_run hstays.2
      rw [Booth.votersOf_serve, Booth.votersOf_hear.1 hstays.1]
      exact List.mem_append_left _ (mem_votesFor h hsaid hid hmember hvote)
    · refine ih (h.serve hsaid (hfair first (List.mem_cons_self ..)))
        (fun t ht => hfair t (List.mem_cons_of_mem _ ht)) hstays.2 ?_ hlater
      rwa [Booth.setAt_serve]

/-- At the end of a round in time the voters that the next leader has counted outweigh the
others. -/
theorem Lined.outweighs_run (h : net.Lined P history live p trail)
    (hquorate : ∀ view, (history.setAt view).Outweighs live)
    (hround : round.Timely P history live net p) {leader : ValidatorId}
    (hled : round.Led P live net p leader) :
    ((net.booths leader).setAt (p.key P).1).Outweighs
      ((run (Booth.serve P) (net.booths leader) (round leader)).votersOf (p.key P)) := by
  have hheavy := hquorate (p.key P).1
  rw [← h.setAt leader hled.mem] at hheavy
  exact hheavy.mono fun id hid hmember => mem_votersOf_run (h.inRound hquorate round hled.mem)
    (h.saidUpTo hround) (hround.fair leader hled.mem) hled.stays hid hmember (hled.votes id hid)

/-- A round in time ends with the proposal of the next one. -/
theorem Lined.proposes (h : net.Lined P history live p trail)
    (hquorate : ∀ view, (history.setAt view).Outweighs live)
    (hround : round.Timely P history live net p) :
    ∃ q, net.sent P history round (p.block.header.view + 1) = [q] ∧ p.Succeeds P q := by
  obtain ⟨leader, hleader, hled⟩ := hround.led
  obtain ⟨early, late, hsplit, hhanded, hnot⟩ := hled.early
  have hsaid := h.saidUpTo hround
  have hin := h.inRound hquorate round hled.mem
  have hfair := hround.fair leader hled.mem
  have htended := hround.tended hled
  have hall := hround.handed leader hled.mem
  rw [hsplit] at htended hfair hall
  obtain ⟨hearly, hlate⟩ := htended.append
  have hlater : Booth.handed late = [] := by
    rw [Booth.handed_append, hhanded] at hall
    simpa using hall
  -- the block is there when the quorum is complete
  have hfits := hround.fits leader hled.mem
  rw [hsplit] at hfits
  have hsettled := (Booth.settled_of_inStep (h.inStep leader hled.mem) hhanded hfits.append.1).1
  obtain ⟨hview, hsent⟩ := Booth.before_run hsaid hin (h.proposed leader hled.mem) hearly hnot
  have hmiddle := Booth.inRound_run hsaid hin fun t ht => hfair t (List.mem_append_left _ ht)
  have hend := h.outweighs_run hquorate hround hled
  rw [hsplit, run_append] at hend
  have hleads : roundRobinLeader ((net.booths leader).setAt (p.block.header.view + 1))
      (p.block.header.view + 1) = some (net.booths leader).core.selfId := by
    rw [h.setAt leader hled.mem, h.selfId leader hled.mem]
    exact hleader
  obtain ⟨q, hq, hsucc⟩ := Booth.proposes_run hsaid hmiddle hsettled hlater hround.view
    (by rwa [Booth.setAt_run, Booth.selfId_run]) hview hlate (by rwa [Booth.setAt_run])
    (by rwa [Booth.setAt_run])
  refine ⟨q, ?_, hsucc⟩
  rw [sent, hleader, Option.elim_some, acts, hsplit, Booth.served_append, Booth.sentIn_append,
    hsent, hq]
  rfl

/-- It leaves the live validators lined up for that. -/
theorem Lined.play (h : net.Lined P history live p trail)
    (hquorate : ∀ view, (history.setAt view).Outweighs live)
    (hround : round.Timely P history live net p) {q : Proposal} (hsucc : p.Succeeds P q)
    (hlacks : ∀ id ∈ live, ((net.play P round).booths id).core.state.Lacks P q) :
    (net.play P round).Lined P history live q (p :: trail) := by
  have hsaid := h.saidUpTo hround
  have hend : ∀ id ∈ live, Booth.InRound P live (net.play P round).said p
      ((net.play P round).booths id) := fun id hid =>
    Booth.inRound_run hsaid (h.inRound hquorate round hid) (hround.fair id hid)
  have hview := hsucc.view
  constructor
  · exact fun id hid => (hend id hid).buckets
  · exact fun id hid view => (Booth.setAt_run view).trans (h.setAt id hid view)
  · exact fun id hid => Booth.selfId_run.trans (h.selfId id hid)
  · exact fun id hid => (hend id hid).records
  · intro id hid qc hqc
    rcases (hend id hid).keeps.high qc hqc with hlt | ⟨heq, -⟩ <;> omega
  · intro id hid
    rw [hview]
    exact (hend id hid).proposed
  · exact fun id hid => (h.settles hround hid).1.next hsucc (hlacks id hid)
  · intro id hid vote hvote
    rcases hsaid id hid vote hvote with hlt | rfl
    · omega
    · show p.block.header.view < q.block.header.view
      omega

/-- Validators that have just started, or started again, with the proposal next, are lined up. -/
theorem lined_resume (states : ValidatorId → HotStuffState) (limits : ValidatorId → CacheLimits)
    (proposed : ValidatorId → ℕ)
    (hset : ∀ id ∈ live, ∀ view, (states id).validatorHistory.setAt view = history.setAt view)
    (hhigh : ∀ id ∈ live, ∀ qc ∈ (states id).highQc, qc.view < p.block.header.view)
    (hproposed : ∀ id ∈ live, proposed id ≤ p.block.header.view)
    (hsaid : ∀ id ∈ live, ∀ vote ∈ net.said id, vote.view < p.block.header.view)
    (hknown : ∀ id ∈ live, (HotStuffCore.withLimits id (states id)
      (limits id)).state.pendingBlocks.containsKey p.block.header.parentHash = true)
    (hready : ∀ id ∈ live,
      Ready P (HotStuffCore.withLimits id (states id) (limits id)).state p [])
    (hbooths : net.booths = fun id => .resume id (states id) (limits id) (proposed id)) :
    net.Lined P history live p [] := by
  have hnone : ∀ {K V : Type} [DecidableEq K] (k : K), (∅ : Table K V).get? k = none :=
    fun k => Table.get?_empty k
  rw [show net = ⟨net.booths, net.said⟩ from rfl, hbooths]
  constructor
  · exact fun id _ => (Booth.kept_resume id (states id) (limits id) (proposed id)).buckets
  · exact hset
  · exact fun _ _ => rfl
  · intro id _ id' _ view hash hget
    have hempty : (∅ : Table (ℕ × ValidatorId) BlockHash).get? (view, id') = some hash := hget
    rw [hnone] at hempty
    cases hempty
  · exact hhigh
  · exact hproposed
  · intro id hid
    refine ⟨fun k => hnone k, fun q hq => ?_, fun q hq => ?_, ⟨.nil, fun x hx => ?_⟩, .singleton _⟩
    · obtain rfl : p = q := Option.some.inj hq
      exact hknown id hid
    · obtain rfl : p = q := Option.some.inj hq
      exact hready id hid
    · simp at hx
  · exact hsaid

/-- Rounds in time go on to the end. -/
theorem Lined.follow {rounds : List ViewRound} (h : net.Lined P history live p trail)
    (hquorate : ∀ view, (history.setAt view).Outweighs live)
    (hrounds : net.Timely P history live p rounds) :
    ∃ qs, net.Follow P history p rounds qs ∧ ∀ id ∈ live,
      (net.allActs P rounds id).filterMap Action.vote? =
          ((p :: qs).take rounds.length).map (Proposal.vote P) ∧
        ∃ old : List Block, old.length ≤ 3 - trail.length ∧
          (net.allActs P rounds id).filterMap Action.committed? =
            old ++ HotStuffCore.finals trail ((p :: qs).take rounds.length) := by
  induction rounds generalizing net p trail with
  | nil =>
    refine ⟨[], rfl, fun id hid => ⟨rfl, [], Nat.zero_le _, ?_⟩⟩
    simp [allActs, HotStuffCore.finals]
  | cons round rounds ih =>
    obtain ⟨hround, hnext⟩ := hrounds
    obtain ⟨q, hq, hsucc⟩ := h.proposes hquorate hround
    obtain ⟨hlacks, hlater⟩ := hnext q (by rw [hq]; exact List.mem_singleton_self _)
    obtain ⟨qs, hfollow, hids⟩ := ih (h.play hquorate hround hsucc hlacks) hlater
    refine ⟨q :: qs, ⟨hq, hsucc, hfollow⟩, fun id hid => ?_⟩
    obtain ⟨-, hvotes, c, hc, hroom, hcommits⟩ := h.settles hround hid
    obtain ⟨hvotes', hcommits'⟩ := hids id hid
    rw [allActs, List.filterMap_append, List.filterMap_append, hvotes, hvotes', hcommits,
      List.length_cons, List.take_succ_cons, List.map_cons]
    exact ⟨rfl, hc.finals_take hroom hcommits'⟩

end

end RoundNet

/-- In rounds in time, one for each view, the next leader always proposes once and on a certificate
for the block of the round, and every live validator votes for all these proposals and commits their
blocks in order, but for the last three. -/
theorem rounds_commit (P : Primitives) (history : ValidatorSetHistory) (live : List ValidatorId)
    (net : RoundNet) (p : Proposal) (rounds : List ViewRound)
    (hquorate : ∀ view, (history.setAt view).Outweighs live)
    (hlined : net.Lined P history live p []) (hrounds : net.Timely P history live p rounds) :
    ∃ qs, net.Follow P history p rounds qs ∧ ∀ id ∈ live,
      (net.allActs P rounds id).filterMap Action.vote? =
          ((p :: qs).take rounds.length).map (Proposal.vote P) ∧
        ∃ old : List Block, old.length ≤ 3 ∧
          (net.allActs P rounds id).filterMap Action.committed? =
            old ++ ((p :: qs).take (rounds.length - 3)).map Proposal.block := by
  obtain ⟨qs, hfollow, hids⟩ := hlined.follow hquorate hrounds
  refine ⟨qs, hfollow, fun id hid => ?_⟩
  obtain ⟨hvotes, old, hold, hcommits⟩ := hids id hid
  refine ⟨hvotes, old, hold, ?_⟩
  have hlength : ((p :: qs).take rounds.length).length = rounds.length := by
    rw [List.length_take, List.length_cons, hfollow.length]
    omega
  rw [hcommits, HotStuffCore.finals, hlength]
  simp [List.take_take]

namespace Sample

/-- The vote of a validator for a proposal. -/
def castFor (p : Proposal) (id : ValidatorId) : Event :=
  .voteReceived ⟨⟨⟨p.vote primitives, id, 0⟩, id⟩, 1⟩

/-- Everybody is handed the proposal and the four votes for it. -/
def openRound (p : Proposal) : ViewRound := fun _ =>
  ⟨order, received p, none⟩ :: [1, 2, 3, 4].map fun id =>
    ⟨order, castFor p id, some (child p.block (p.block.header.view + 1))⟩

/-- What the next leader makes of the first three votes. -/
def proposalAfter (p : Proposal) : Proposal :=
  ⟨child p.block (p.block.header.view + 1), [0, 1, 2].foldl
    (fun qc i => qc.addBlsPartial primitives i 1)
    (.new p.block.header.view (p.block.hash primitives) 4)⟩

def openNet : RoundNet where
  booths := fun id => .resume id (.new primitives validators genesis) .unboundedForTests 0
  said := fun _ => []

def openHistory : ValidatorSetHistory :=
  (HotStuffState.new primitives validators genesis).validatorHistory

theorem timely_openRound {net : RoundNet} {p : Proposal} (leader : ValidatorId)
    (h : (∀ id ∈ [1, 2, 3, 4], ∀ turn ∈ openRound p id,
        turn.Fair [1, 2, 3, 4] (net.play primitives (openRound p)).said p) ∧
      (∀ id ∈ [1, 2, 3, 4], Along (Booth.serve primitives) (Booth.Fits primitives)
        (net.booths id) (openRound p id)) ∧
      p.block.header.view + 1 < 2 ^ 64 ∧
      roundRobinLeader (openHistory.setAt (p.block.header.view + 1)) (p.block.header.view + 1) =
        some leader ∧
      leader ∈ [1, 2, 3, 4] ∧
      Along (Booth.serve primitives) (Booth.Builds primitives) (net.booths leader)
        (openRound p leader) ∧
      Along (Booth.serve primitives) (fun b turn => ¬ b.Ousts (p.key primitives) turn.input)
        (net.booths leader) (openRound p leader) ∧
      (∀ id ∈ [1, 2, 3, 4], ∃ turn ∈ openRound p leader,
        turn.HandsVote (p.vote primitives) id) ∧
      ¬ ((net.booths leader).setAt p.block.header.view).Outweighs
        ((run (Booth.serve primitives) (net.booths leader) [⟨order, received p, none⟩]).votersOf
          (p.key primitives))) :
    (openRound p).Timely primitives openHistory [1, 2, 3, 4] net p := by
  obtain ⟨hfair, hfits, hview, hleads, hmem, hbuilds, hstays, hvotes, hearly⟩ := h
  exact ⟨hfair, fun _ _ => rfl, hfits, hview, leader, hleads, hmem, hbuilds, hstays, hvotes,
    _, _, rfl, rfl, hearly⟩

/-- A round in time, and those that come after the proposal it leads to. -/
theorem timely_cons {net : RoundNet} {p : Proposal} {rounds : List ViewRound}
    (hround : (openRound p).Timely primitives openHistory [1, 2, 3, 4] net p)
    (hsent : net.sent primitives openHistory (openRound p) (p.block.header.view + 1) =
        [proposalAfter p] ∧
      ∀ id ∈ [1, 2, 3, 4],
        ((net.play primitives (openRound p)).booths id).core.state.Lacks primitives
          (proposalAfter p))
    (hrest : (net.play primitives (openRound p)).Timely primitives openHistory [1, 2, 3, 4]
      (proposalAfter p) rounds) :
    net.Timely primitives openHistory [1, 2, 3, 4] p (openRound p :: rounds) := by
  refine ⟨hround, fun q hq => ?_⟩
  rw [hsent.1, List.mem_singleton] at hq
  subst hq
  exact ⟨hsent.2, hrest⟩

def openProposals : List Proposal :=
  [d₁, proposalAfter d₁, proposalAfter (proposalAfter d₁),
    proposalAfter (proposalAfter (proposalAfter d₁))]

theorem timely_open : openNet.Timely primitives openHistory [1, 2, 3, 4] d₁
    (openProposals.map openRound) := by
  refine timely_cons (timely_openRound 3 (by decide +kernel)) (by decide +kernel) ?_
  refine timely_cons (timely_openRound 4 (by decide +kernel)) (by decide +kernel) ?_
  refine timely_cons (timely_openRound 1 (by decide +kernel)) (by decide +kernel) ?_
  exact timely_cons (timely_openRound 2 (by decide +kernel)) (by decide +kernel) trivial

theorem lined_openNet : openNet.Lined primitives openHistory [1, 2, 3, 4] d₁ [] := by
  refine RoundNet.lined_resume (fun _ => .new primitives validators genesis)
    (fun _ => .unboundedForTests) (fun _ => 0) (fun _ _ _ => rfl) (by decide) (by decide)
    (by decide) (by decide +kernel) (fun id _ => ?_) rfl
  have hready := ready_freshCore
  exact ⟨hready.voted, hready.locked, hready.justify, hready.certified, hready.views,
    hready.heights, hready.parent, fun x hx => hready.absent x (by simp_all),
    fun x hx => hready.childless x (by simp_all), List.nodup_singleton _⟩

/-- Four rounds of four validators commit the first of their blocks. -/
theorem openRounds_commit : (∀ view, (openHistory.setAt view).Outweighs [1, 2, 3, 4]) ∧
    ∃ qs, openNet.Follow primitives openHistory d₁ (openProposals.map openRound) qs ∧
      ∀ id ∈ [1, 2, 3, 4],
        (openNet.allActs primitives (openProposals.map openRound) id).filterMap Action.vote? =
            ((d₁ :: qs).take 4).map (Proposal.vote primitives) ∧
          ∃ old : List Block, old.length ≤ 3 ∧
            (openNet.allActs primitives (openProposals.map openRound) id).filterMap
                Action.committed? = old ++ ((d₁ :: qs).take 1).map Proposal.block := by
  have hquorate : ∀ view, (openHistory.setAt view).Outweighs [1, 2, 3, 4] := fun view => by
    rw [show openHistory.setAt view = validators from
      ValidatorSetHistory.setAt_fromGenesis validators view]
    decide
  exact ⟨hquorate, rounds_commit primitives openHistory [1, 2, 3, 4] openNet d₁ _ hquorate
    lined_openNet timely_open⟩

end Sample

end Boule
