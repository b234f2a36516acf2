import Boule.HotStuff.LockOrder

/-! Progress of a replica that is handed one proposal after the other, each on the certificate of
the one before: it votes for all of them and commits each when the third one after it comes. -/
namespace Boule
open HotStuffState

/-- The commit rule fires on every three-chain. -/
theorem ThreeChain.commit_eq {s : HotStuffState} {qc : QuorumCertificate}
    {b1 b2 b3 : Block} (h : ThreeChain s qc b1 b2 b3) : threeChainCommit qc s = some b1 := by
  have h3 : s.pendingBlocks.get? qc.blockHash = some b3 := h.get_b3
  have h2 : s.pendingBlocks.get? b3.header.parentHash = some b2 := h.get_b2
  have h1 : s.pendingBlocks.get? b2.header.parentHash = some b1 := h.get_b1
  simp [threeChainCommit, h3, h2, h1, h.view_b3, h.next_b3, h.next_b2]

/-- `p'` is proposed in the view after that of `p`, on the certificate of its block. -/
structure Proposal.Succeeds (P : Primitives) (p p' : Proposal) : Prop where
  parent : p'.block.header.parentHash = p.block.hash P
  justify : p'.justify.blockHash = p.block.hash P
  certified : p'.justify.view = p.block.header.view
  view : p'.block.header.view = p.block.header.view + 1
  fits : p'.block.header.view < 2 ^ 64
  height : p.block.header.height < p'.block.header.height

instance (P : Primitives) (p p' : Proposal) : Decidable (p.Succeeds P p') :=
  decidable_of_iff (_ ∧ _ ∧ _ ∧ _ ∧ _ ∧ _)
    ⟨fun h => ⟨h.1, h.2.1, h.2.2.1, h.2.2.2.1, h.2.2.2.2.1, h.2.2.2.2.2⟩,
      fun h => ⟨h.1, h.2, h.3, h.4, h.5, h.6⟩⟩

/-- The replica has neither voted nor locked too late for the proposal, and knows nothing yet of the
blocks that come. -/
structure Ready (P : Primitives) (s : HotStuffState) (p : Proposal) (rest : List Proposal) :
    Prop where
  voted : s.lastVotedView < p.block.header.view
  locked : ∀ l ∈ s.locked, l.view < p.justify.view
  justify : p.justify.blockHash = p.block.header.parentHash
  certified : p.justify.view ≤ p.block.header.view
  views : ∀ h b, s.getPending h = some b → b.header.view < p.block.header.view
  heights : ∀ h b b', s.getPending h = some b → s.getPending b.header.parentHash = some b' →
    b'.header.height < b.header.height
  parent : ∀ q, s.getPending p.block.header.parentHash = some q →
    q.header.height < p.block.header.height
  absent : ∀ p' ∈ p :: rest, s.getPending (p'.block.hash P) = none
  childless : ∀ p' ∈ p :: rest, ∀ h b, s.getPending h = some b →
    b.header.parentHash ≠ p'.block.hash P
  distinct : ((p :: rest).map fun p => p.block.hash P).Nodup

namespace Ready
variable {P : Primitives} {s s' : HotStuffState} {p p' : Proposal} {rest : List Proposal}

theorem same (h : Ready P s p rest) (hs : SameSafety s s') : Ready P s' p rest := by
  have hget : ∀ k, s'.getPending k = s.getPending k := fun k => by
    unfold getPending
    rw [hs.pendingBlocks]
  constructor
  · rw [hs.lastVotedView]
    exact h.voted
  · rw [hs.locked]
    exact h.locked
  · exact h.justify
  · exact h.certified
  · simpa only [hget] using h.views
  · simpa only [hget] using h.heights
  · simpa only [hget] using h.parent
  · simpa only [hget] using h.absent
  · simpa only [hget] using h.childless
  · exact h.distinct

variable (h : Ready P s p rest) (hroom : s.HasRoomFor P p.block) {q : Block}
  (hq : s.getPending p.block.header.parentHash = some q)

include h in
theorem votesFor : s.votesFor P p = true := by
  have hvoted : ¬ p.block.header.view ≤ s.lastVotedView := Nat.not_le.mpr h.voted
  unfold HotStuffState.votesFor safeToVote
  rw [insertPending_lastVotedView, insertPending_locked, if_neg hvoted]
  cases hl : s.locked with
  | none => rfl
  | some l =>
    have hlt := h.locked l hl
    simp only [decide_eq_true hlt, ite_self]

include h in
theorem ne_hash {p' : Proposal} (hmem : p' ∈ p :: rest) {k : BlockHash} {b : Block}
    (hb : s.getPending k = some b) : k ≠ p'.block.hash P := by
  rintro rfl
  rw [h.absent p' hmem] at hb
  cases hb

include hroom in
/-- What is pending once the block is in. -/
theorem pending {k : BlockHash} {b : Block}
    (hb : (s.insertPending P p.block).getPending k = some b) :
    k = p.block.hash P ∧ b = p.block ∨ k ≠ p.block.hash P ∧ s.getPending k = some b := by
  rw [hroom.getPending_insertPending] at hb
  split_ifs at hb with hk
  · exact .inl ⟨hk, (Option.some.inj hb).symm⟩
  · exact .inr ⟨hk, hb⟩

include h hroom hq in
/-- Heights still grow from parent to child once the block is in. -/
theorem heights_insert {k : BlockHash} {b b' : Block}
    (hb : (s.insertPending P p.block).getPending k = some b)
    (hb' : (s.insertPending P p.block).getPending b.header.parentHash = some b') :
    b'.header.height < b.header.height := by
  have hparent := h.ne_hash (List.mem_cons_self ..) hq
  rcases Ready.pending hroom hb with ⟨-, rfl⟩ | ⟨-, hold⟩
  · rw [hroom.getPending_insertPending, if_neg hparent] at hb'
    exact h.parent b' hb'
  · have hne := h.childless p (List.mem_cons_self ..) k b hold
    rw [hroom.getPending_insertPending, if_neg hne] at hb'
    exact h.heights k b b' hold hb'

include h hroom hq in
/-- A commit leaves the block, its parent and its grandparent. -/
theorem survives {c : Block} (hc : s.commits P p = some c) :
    c.header.height < q.header.height ∧
      ∀ z, s.getPending q.header.parentHash = some z → c.header.height < z.header.height := by
  obtain ⟨b2, b3, hchain⟩ := threeChain_of_threeChainCommit hc
  have hparent := h.ne_hash (List.mem_cons_self ..) hq
  have hb3 : b3 = q := by
    have hget := hchain.get_b3
    rw [h.justify, hroom.getPending_insertPending, if_neg hparent, hq] at hget
    exact (Option.some.inj hget).symm
  subst hb3
  have hb2 : s.getPending b3.header.parentHash = some b2 := by
    have hget := hchain.get_b2
    rwa [hroom.getPending_insertPending,
      if_neg (h.childless p (List.mem_cons_self ..) _ b3 hq)] at hget
  have hlow := h.heights_insert hroom hq hchain.get_b2 hchain.get_b1
  have hhigh := h.heights_insert hroom hq hchain.get_b3 hchain.get_b2
  refine ⟨hlow.trans hhigh, fun z hz => ?_⟩
  obtain rfl := Option.some.inj (hb2.symm.trans hz)
  exact hlow

include h hroom hq in
theorem getPending_next {k : BlockHash} {b : Block}
    (hb : (s.insertPending P p.block).getPending k = some b)
    (hhigh : b = p.block ∨ b = q ∨ s.getPending q.header.parentHash = some b) :
    (s.acceptProposal P p).1.getPending k = some b := by
  rw [acceptProposal_getPending]
  refine ⟨hb, fun c hc => ?_⟩
  have hlow := h.survives hroom hq hc
  rcases hhigh with rfl | rfl | hz
  · exact hlow.1.trans (h.parent q hq)
  · exact hlow.1
  · exact hlow.2 b hz

include h hroom hq in
/-- The proposal leaves the replica ready for one that succeeds it, if that is new. -/
theorem follow (hsucc : p.Succeeds P p') {later : List Proposal}
    (habsent : ∀ x ∈ p' :: later,
      (s.acceptProposal P p).1.getPending (x.block.hash P) = none)
    (hchildless : ∀ x ∈ p' :: later, ∀ k b, (s.acceptProposal P p).1.getPending k = some b →
      b.header.parentHash ≠ x.block.hash P)
    (hdistinct : ((p' :: later).map fun p => p.block.hash P).Nodup) :
    Ready P (s.acceptProposal P p).1 p' later := by
  have hsub : ∀ {k b}, (s.acceptProposal P p).1.getPending k = some b →
      (s.insertPending P p.block).getPending k = some b := fun hb =>
    ((acceptProposal_getPending P s p _ _).mp hb).1
  have hparent := h.ne_hash (List.mem_cons_self ..) hq
  have hvotes := h.votesFor
  refine ⟨?_, ?_, ?_, ?_, ?_, ?_, ?_, habsent, hchildless, hdistinct⟩
  · rw [acceptProposal_lastVotedView, hsucc.view, if_pos hvotes]
    omega
  · intro l hl
    rw [acceptProposal_locked, nextLock] at hl
    rw [hsucc.certified]
    have hold : ∀ l ∈ s.locked, l.view < p.block.header.view := fun l hl =>
      (h.locked l hl).trans_le h.certified
    cases hcand : s.lockCandidate P p with
    | none =>
      rw [hcand] at hl
      exact hold l hl
    | some cand =>
      rw [hcand] at hl
      simp only at hl
      split_ifs at hl
      · obtain rfl := Option.some.inj hl
        obtain ⟨y, z, hy, hz, rfl⟩ := (lockCandidate_eq_some_iff P s p _).mp hcand
        rw [hroom.getPending_insertPending, if_neg hparent] at hy
        rw [hroom.getPending_insertPending,
          if_neg (h.childless p (List.mem_cons_self ..) _ y hy)] at hz
        exact h.views _ z hz
      · exact hold l hl
  · rw [hsucc.justify, hsucc.parent]
  · rw [hsucc.certified, hsucc.view]
    omega
  · intro k b hb
    rw [hsucc.view]
    rcases Ready.pending hroom (hsub hb) with ⟨-, rfl⟩ | ⟨-, hold⟩
    · omega
    · have hlt := h.views k b hold
      omega
  · exact fun k b b' hb hb' => h.heights_insert hroom hq (hsub hb) (hsub hb')
  · intro b hb
    rw [hsucc.parent] at hb
    have hself := hsub hb
    rw [getPending_insertPending_self] at hself
    obtain rfl := Option.some.inj hself
    exact hsucc.height

include h hroom hq in
/-- A proposal that was expected is new when it comes. -/
theorem next (hsucc : p.Succeeds P p') (hmem : rest = p' :: rest.tail) :
    Ready P (s.acceptProposal P p).1 p' rest.tail := by
  have hsub : ∀ {k b}, (s.acceptProposal P p).1.getPending k = some b →
      (s.insertPending P p.block).getPending k = some b := fun hb =>
    ((acceptProposal_getPending P s p _ _).mp hb).1
  refine h.follow hroom hq hsucc ?_ ?_ ?_
  · intro x hx
    have hdistinct := (List.nodup_cons.mp h.distinct).1
    have hne : x.block.hash P ≠ p.block.hash P := fun he =>
      hdistinct (List.mem_map.mpr ⟨x, hmem ▸ hx, he⟩)
    by_contra hsome
    obtain ⟨b, hb⟩ := Option.ne_none_iff_exists'.mp hsome
    rcases Ready.pending hroom (hsub hb) with ⟨he, -⟩ | ⟨-, hold⟩
    · exact hne he
    · rw [h.absent x (List.mem_cons_of_mem _ (hmem ▸ hx))] at hold
      cases hold
  · intro x hx k b hb
    have hx' : x ∈ p :: rest := List.mem_cons_of_mem _ (hmem ▸ hx)
    rcases Ready.pending hroom (hsub hb) with ⟨-, rfl⟩ | ⟨-, hold⟩
    · exact h.ne_hash hx' hq
    · exact h.childless x hx' k b hold
  · rw [← hmem]
    exact (List.nodup_cons.mp h.distinct).2

end Ready

/-- A chain of proposals, newest first, of which the last three blocks are pending. -/
structure Trail (P : Primitives) (s : HotStuffState) (trail : List Proposal) : Prop where
  chain : trail.IsChain fun p' p => p.Succeeds P p'
  held : ∀ x ∈ trail.take 3, s.getPending (x.block.hash P) = some x.block

namespace Trail
variable {P : Primitives} {s s' : HotStuffState} {p p₁ p₂ p₃ : Proposal}
  {rest trail : List Proposal}

theorem same (h : Trail P s trail) (hs : SameSafety s s') : Trail P s' trail := by
  refine ⟨h.chain, fun x hx => ?_⟩
  have hheld := h.held x hx
  unfold getPending at hheld ⊢
  rwa [hs.pendingBlocks]

/-- An accepted proposal joins the trail. -/
theorem accept (h : Trail P s trail) (hready : Ready P s p rest)
    (hroom : s.HasRoomFor P p.block)
    (hknown : s.pendingBlocks.containsKey p.block.header.parentHash = true)
    (hchain : (p :: trail).IsChain fun p' p => p.Succeeds P p') :
    Trail P (s.acceptProposal P p).1 (p :: trail) := by
  obtain ⟨q, hq⟩ := (Table.containsKey_iff _ _).mp hknown
  refine ⟨hchain, fun x hx => ?_⟩
  have hold : ∀ x ∈ trail.take 3, (s.insertPending P p.block).getPending (x.block.hash P) =
      some x.block := fun x hx => by
    have hne := hready.ne_hash (List.mem_cons_self ..) (h.held x hx)
    rw [hroom.getPending_insertPending, if_neg hne]
    exact h.held x hx
  match trail, h, hchain, hold with
  | [], _, _, _ =>
    obtain rfl : x = p := by simpa using hx
    exact hready.getPending_next hroom hq (getPending_insertPending_self ..) (.inl rfl)
  | p₃ :: older, h, hchain, hold =>
    have hsucc : p₃.Succeeds P p := (List.isChain_cons_cons.mp hchain).1
    have hheld := h.held p₃ (by simp)
    have hq' : p₃.block = q := by
      rw [← hsucc.parent, show s.getPending _ = some q from hq] at hheld
      exact (Option.some.inj hheld).symm
    rw [List.take_succ_cons, List.mem_cons] at hx
    rcases hx with rfl | hx
    · exact hready.getPending_next hroom hq (getPending_insertPending_self ..) (.inl rfl)
    have hx3 : x ∈ (p₃ :: older).take 3 := List.take_subset_take_left _ (by omega) hx
    refine hready.getPending_next hroom hq (hold x hx3) ?_
    rw [List.take_succ_cons, List.mem_cons] at hx
    rcases hx with rfl | hx
    · exact .inr (.inl hq')
    · match older, hx, hx3 with
      | p₂ :: older, hx, hx3 =>
        obtain rfl : x = p₂ := by simpa using hx
        have hsucc₃ : x.Succeeds P p₃ :=
          (List.isChain_cons_cons.mp (List.isChain_cons_cons.mp hchain).2).1
        rw [← hq', hsucc₃.parent]
        exact .inr (.inr (h.held x hx3))

/-- With three blocks of the chain pending, the next proposal commits the oldest. -/
theorem commits (h : Trail P s (p₃ :: p₂ :: p₁ :: trail)) (hready : Ready P s p rest)
    (hroom : s.HasRoomFor P p.block) (hsucc : p₃.Succeeds P p) :
    s.commits P p = some p₁.block := by
  have hget : ∀ x ∈ [p₃, p₂, p₁],
      (s.insertPending P p.block).getPending (x.block.hash P) = some x.block := fun x hx => by
    have hheld := h.held x hx
    have hne := hready.ne_hash (List.mem_cons_self ..) hheld
    rw [hroom.getPending_insertPending, if_neg hne]
    exact hheld
  have h₃ : p₂.Succeeds P p₃ := (List.isChain_cons_cons.mp h.chain).1
  have h₂ : p₁.Succeeds P p₂ :=
    (List.isChain_cons_cons.mp (List.isChain_cons_cons.mp h.chain).2).1
  have hnext : ∀ {a b : Proposal}, a.Succeeds P b →
      addU64 a.block.header.view 1 = b.block.header.view := fun {a b} hab => by
    have hfits := hab.fits
    rw [hab.view] at hfits ⊢
    exact Nat.mod_eq_of_lt hfits
  have hthree : ThreeChain (s.insertPending P p.block) p.justify p₁.block p₂.block p₃.block := by
    constructor
    · rw [hsucc.justify]
      exact hget p₃ (by simp)
    · rw [h₃.parent]
      exact hget p₂ (by simp)
    · rw [h₂.parent]
      exact hget p₁ (by simp)
    · exact hsucc.certified.symm
    · exact hnext h₃
    · exact hnext h₂
  exact hthree.commit_eq

end Trail

def Action.vote? : Action → Option Vote
  | .broadcast (.vote v) => some v
  | _ => none

/-- The vote for a proposal. -/
def Proposal.vote (P : Primitives) (p : Proposal) : Vote where
  view := p.block.header.view
  blockHash := p.block.hash P

namespace HotStuffCore
variable (P : Primitives)

/-- All actions of a run, in order. -/
def runActions : HotStuffCore → List (IterOrder × Event) → List Action
  | _, [] => []
  | c, input :: inputs => (c.step P input.1 input.2).2 ++ runActions (c.next P input) inputs

/-- The core has accepted the proposals of the trail and waits for those that come. -/
structure InStep (c : HotStuffCore) (trail coming : List Proposal) : Prop where
  parked : ∀ h, c.parkedProposals.get? h = none
  known : ∀ p ∈ coming.head?, c.state.pendingBlocks.containsKey p.block.header.parentHash = true
  ready : ∀ p ∈ coming.head?, Ready P c.state p coming.tail
  held : Trail P c.state trail
  chain : (trail.reverse ++ coming).IsChain (Proposal.Succeeds P)

variable {P} {c : HotStuffCore} {input : IterOrder × Event} {inputs : List (IterOrder × Event)}
  {p : Proposal} {trail coming : List Proposal}

theorem filterMap_vote_step : (c.step P input.1 input.2).2.filterMap Action.vote? =
    (c.stepCalls P input.1 input.2).flatMap fun call =>
      if call.1.votesFor P call.2 then [call.2.vote P] else [] := by
  have hfilter : ∀ l : List Action, (l.filter Action.isSafety).filterMap Action.vote? =
      l.filterMap Action.vote? := fun l => by
    rw [List.filterMap_filter]
    refine List.filterMap_congr fun a _ => ?_
    cases a with
    | broadcast msg => cases msg <;> rfl
    | _ => exact ite_self _
  have hcall : ∀ call : AcceptCall, (call.safetyActions P).filterMap Action.vote? =
      if call.1.votesFor P call.2 then [call.2.vote P] else [] := fun call => by
    rw [AcceptCall.safetyActions_eq]
    cases call.1.votesFor P call.2 <;> cases call.newLock P <;>
      cases call.1.commits P call.2 <;> rfl
  rw [← hfilter, (handles_step P input.1 c input.2).actions, List.filterMap_flatMap]
  simp only [hcall]

/-- With nothing parked, only a delivered proposal is accepted. -/
theorem stepCalls_of_parked_eq_none (hparked : ∀ h, c.parkedProposals.get? h = none)
    (hnone : input.2.proposal? = none) : c.stepCalls P input.1 input.2 = [] := by
  by_contra hne
  obtain ⟨call, hcall⟩ := List.exists_mem_of_ne_nil _ hne
  obtain ⟨signed, -, hsome | ⟨k, hk⟩⟩ := mem_stepCalls hcall
  · rw [hnone] at hsome
    cases hsome
  · rw [hparked] at hk
    cases hk

theorem sameSafety_of_parked_eq_none (hparked : ∀ h, c.parkedProposals.get? h = none)
    (hnone : input.2.proposal? = none) : SameSafety c.state (c.next P input).state := by
  have hlinked := (handles_step P input.1 c input.2).linked
  rwa [stepCalls_of_parked_eq_none (P := P) hparked hnone] at hlinked

/-- A step without a proposal changes nothing of this. -/
theorem InStep.wait (h : c.InStep P trail coming) (hnone : input.2.proposal? = none) :
    (c.next P input).InStep P trail coming ∧
      (c.step P input.1 input.2).2.filterMap Action.vote? = [] ∧
      (c.step P input.1 input.2).2.filterMap Action.committed? = [] := by
  have hcalls := stepCalls_of_parked_eq_none (P := P) h.parked hnone
  have hstep := handles_step P input.1 c input.2
  have hsame := sameSafety_of_parked_eq_none (P := P) h.parked hnone
  refine ⟨?_, ?_, ?_⟩
  · constructor
    · intro k
      by_contra hsome
      obtain ⟨signed, hsigned⟩ := Option.ne_none_iff_exists'.mp hsome
      rcases hstep.parked hsigned with hp | ⟨k', hold⟩
      · rw [hnone] at hp
        cases hp
      · rw [h.parked] at hold
        cases hold
    · rw [hsame.pendingBlocks]
      exact h.known
    · exact fun p hp => (h.ready p hp).same hsame
    · exact h.held.same hsame
    · exact h.chain
  · rw [filterMap_vote_step, hcalls]
    rfl
  · rw [filterMap_committed_step, hcalls]
    rfl

/-- A delivered proposal on a known parent is not parked. -/
theorem parked_step_of_known {order : IterOrder} {verified : Verified (Signed Proposal)}
    (hparked : ∀ h, c.parkedProposals.get? h = none)
    (hknown : c.state.pendingBlocks.containsKey
      verified.value.payload.block.header.parentHash = true) (h : BlockHash) :
    (c.step P order (.proposalReceived verified)).1.parkedProposals.get? h = none := by
  obtain ⟨hcache, -⟩ := quiet_checkProposalDedupe c verified.value.payload.block.header.view
    verified.signerValidatorId (verified.value.payload.block.hash P)
  simp only [step]
  generalize c.checkProposalDedupe verified.value.payload.block.header.view
    verified.signerValidatorId (verified.value.payload.block.hash P) = r at hcache ⊢
  rw [← hcache.state] at hknown
  rw [onProposalReceived_of_known hknown]
  by_contra hsome
  obtain ⟨signed, hsigned⟩ := Option.ne_none_iff_exists'.mp hsome
  have hold := hcache.parked hsigned
  rw [hparked] at hold
  cases hold

/-- The next proposal is the one that the step accepts. -/
theorem InStep.accepts (h : c.InStep P trail (p :: coming))
    (hp : input.2.proposal?.map Signed.payload = some p) :
    c.stepCalls P input.1 input.2 = [(c.state, p)] ∧
      SameSafety (c.state.acceptProposal P p).1 (c.next P input).state ∧
      ∀ k, (c.next P input).parkedProposals.get? k = none := by
  obtain ⟨order, e⟩ := input
  obtain ⟨signed, hsigned, hpayload⟩ := Option.map_eq_some_iff.mp hp
  cases e with
  | proposalReceived verified =>
    obtain rfl : verified.value = signed := Option.some.inj hsigned
    have hknown := h.known p rfl
    have hcalls : c.stepCalls P order (.proposalReceived verified) = [(c.state, p)] := by
      subst hpayload
      exact if_pos hknown
    have hlinked := (handles_step P order c (.proposalReceived verified)).linked
    rw [hcalls] at hlinked
    subst hpayload
    exact ⟨hcalls, hlinked.2.2, parked_step_of_known h.parked hknown⟩
  | _ => cases hsigned

/-- The next proposal is voted for and joins the trail. -/
theorem InStep.take (h : c.InStep P trail (p :: coming))
    (hp : input.2.proposal?.map Signed.payload = some p) (hroom : c.state.HasRoomFor P p.block) :
    (c.next P input).InStep P (p :: trail) coming ∧
      (c.step P input.1 input.2).2.filterMap Action.vote? = [p.vote P] ∧
      (c.step P input.1 input.2).2.filterMap Action.committed? = (c.state.commits P p).toList := by
  obtain ⟨hcalls, hsame, hparked⟩ := h.accepts hp
  have hready := h.ready p rfl
  have hknown := h.known p rfl
  obtain ⟨q, hq⟩ := (Table.containsKey_iff _ _).mp hknown
  obtain ⟨hback, hforth⟩ := List.isChain_split.mp h.chain
  have hrev : (p :: trail).IsChain fun p' p => p.Succeeds P p' := by
    simpa using List.isChain_reverse.mpr hback
  have hheld := (h.held.accept hready hroom hknown hrev).same hsame
  have hsucc : ∀ p' ∈ coming.head?, p.Succeeds P p' ∧ coming = p' :: coming.tail := by
    intro p' hp'
    cases coming with
    | nil => cases hp'
    | cons x coming =>
      obtain rfl : x = p' := Option.some.inj hp'
      exact ⟨(List.isChain_cons_cons.mp hforth).1, rfl⟩
  refine ⟨⟨hparked, fun p' hp' => ?_, fun p' hp' => ?_, hheld, ?_⟩, ?_, ?_⟩
  · rw [(hsucc p' hp').1.parent]
    exact (Table.containsKey_iff _ _).mpr ⟨_, hheld.held p (by simp)⟩
  · obtain ⟨hs, hcons⟩ := hsucc p' hp'
    exact (hready.next hroom hq hs hcons).same hsame
  · simpa using h.chain
  · rw [filterMap_vote_step, hcalls]
    simp [hready.votesFor]
  · rw [filterMap_committed_step, hcalls]
    simp

/-- The proposals a run delivers, in order. -/
def delivered (inputs : List (IterOrder × Event)) : List Proposal :=
  inputs.filterMap fun input => input.2.proposal?.map Signed.payload

variable (P) in
/-- There is room for the block that is delivered. -/
def Fits (c : HotStuffCore) (input : IterOrder × Event) : Prop :=
  ∀ signed ∈ input.2.proposal?, c.state.HasRoomFor P signed.payload.block

instance : DecidablePred (c.Fits P) := fun input =>
  inferInstanceAs (Decidable (∀ signed ∈ input.2.proposal?, _))

/-- A run takes the proposals it delivers one by one: `motive` says what is known of the actions
that are left. -/
theorem InStep.run_induction {motive : List Proposal → List Proposal → List Action → Prop}
    (h : c.InStep P trail coming) (hdelivered : delivered inputs = coming)
    (hfits : Along (next P) (Fits P) c inputs)
    (nil : ∀ trail, motive trail [] [])
    (quiet : ∀ trail coming acts later, acts.filterMap Action.vote? = [] →
      acts.filterMap Action.committed? = [] → motive trail coming later →
      motive trail coming (acts ++ later))
    (take : ∀ c : HotStuffCore, ∀ p trail coming acts later, c.InStep P trail (p :: coming) →
      c.state.HasRoomFor P p.block → (p :: trail).IsChain (fun p' p => p.Succeeds P p') →
      acts.filterMap Action.vote? = [p.vote P] →
      acts.filterMap Action.committed? = (c.state.commits P p).toList →
      motive (p :: trail) coming later → motive trail (p :: coming) (acts ++ later)) :
    motive trail coming (runActions P c inputs) := by
  induction inputs generalizing c trail coming with
  | nil =>
    obtain rfl : [] = coming := hdelivered
    exact nil trail
  | cons input inputs ih =>
    obtain ⟨hfit, hfits⟩ := hfits
    unfold delivered at hdelivered
    cases hp : input.2.proposal? with
    | none =>
      rw [List.filterMap_cons, hp] at hdelivered
      obtain ⟨hnext, hvotes, hcommits⟩ := h.wait hp
      exact quiet _ _ _ _ hvotes hcommits (ih hnext hdelivered hfits)
    | some signed =>
      rw [List.filterMap_cons, hp] at hdelivered
      obtain rfl := hdelivered
      have hroom := hfit signed hp
      obtain ⟨hnext, hvotes, hcommits⟩ := h.take (by rw [hp]; rfl) hroom
      exact take c _ _ _ _ _ h hroom hnext.held.chain hvotes hcommits (ih hnext rfl hfits)

/-- Every proposal is voted for, in order. -/
theorem InStep.votes (h : c.InStep P trail coming) (hdelivered : delivered inputs = coming)
    (hfits : Along (next P) (Fits P) c inputs) :
    (runActions P c inputs).filterMap Action.vote? = coming.map (Proposal.vote P) := by
  refine h.run_induction (motive := fun _ coming acts =>
    acts.filterMap Action.vote? = coming.map (Proposal.vote P)) hdelivered hfits ?_ ?_ ?_
  · exact fun _ => rfl
  · intro trail coming acts later hvotes _ ih
    rw [List.filterMap_append, hvotes, ih, List.nil_append]
  · intro c p trail coming acts later _ _ _ hvotes _ ih
    rw [List.filterMap_append, hvotes, ih, List.map_cons, List.singleton_append]

/-- The blocks that become final when the proposals that come are taken: the last three of all
do not. -/
def finals (trail coming : List Proposal) : List Block :=
  (((trail.take 3).reverse ++ coming).take ((trail.take 3).length + coming.length - 3)).map
    Proposal.block

theorem finals_of_three {p₁ p₂ p₃ : Proposal} : finals (p₃ :: p₂ :: p₁ :: trail) coming =
    (([p₁, p₂, p₃] ++ coming).take coming.length).map Proposal.block := by
  have hlength : 3 + coming.length - 3 = coming.length := Nat.add_sub_cancel_left ..
  rw [finals]
  simp only [List.take_succ_cons, List.take_zero, List.length_cons, List.length_nil]
  rw [hlength]
  rfl

theorem finals_cons (hyoung : trail.length < 3) :
    finals (p :: trail) coming = finals trail (p :: coming) := by
  have htrail : trail.take 3 = trail := List.take_of_length_le (by omega)
  have hcons : (p :: trail).take 3 = p :: trail :=
    List.take_of_length_le (by rw [List.length_cons]; omega)
  have hlength : (p :: trail).length + coming.length = trail.length + (p :: coming).length := by
    simp only [List.length_cons]
    omega
  rw [finals, finals, hcons, htrail, hlength, List.reverse_cons, List.append_assoc,
    List.singleton_append]

/-- From the fourth proposal of the chain on, each commits the block three before it. -/
theorem InStep.finals_take {later : List Block} {rest : List Proposal}
    (h : c.InStep P trail (p :: coming)) (hroom : c.state.HasRoomFor P p.block)
    (hlater : ∃ old : List Block, old.length ≤ 3 - (p :: trail).length ∧
      later = old ++ finals (p :: trail) rest) :
    ∃ old : List Block, old.length ≤ 3 - trail.length ∧
      (c.state.commits P p).toList ++ later = old ++ finals trail (p :: rest) := by
  obtain ⟨old, hlen, rfl⟩ := hlater
  rw [← List.append_assoc]
  by_cases hyoung : trail.length < 3
  · refine ⟨(c.state.commits P p).toList ++ old, ?_, by rw [finals_cons hyoung]⟩
    have hone : (c.state.commits P p).toList.length ≤ 1 := Option.length_toList_le
    rw [List.length_cons] at hlen
    rw [List.length_append]
    omega
  · obtain ⟨p₃, p₂, p₁, older, rfl⟩ : ∃ p₃ p₂ p₁ older, trail = p₃ :: p₂ :: p₁ :: older := by
      match trail, hyoung with
      | p₃ :: p₂ :: p₁ :: older, _ => exact ⟨p₃, p₂, p₁, older, rfl⟩
      | [], hlong | [_], hlong | [_, _], hlong => exact absurd (by simp) hlong
    obtain ⟨hback, -⟩ := List.isChain_split.mp h.chain
    have hchain : (p :: p₃ :: p₂ :: p₁ :: older).IsChain fun p' p => p.Succeeds P p' := by
      simpa using List.isChain_reverse.mpr hback
    have hsucc : p₃.Succeeds P p := (List.isChain_cons_cons.mp hchain).1
    have hold : old = [] := List.eq_nil_of_length_eq_zero (by simpa using hlen)
    rw [h.held.commits (h.ready p rfl) hroom hsucc, hold, finals_of_three, finals_of_three]
    exact ⟨[], Nat.zero_le _, rfl⟩

theorem InStep.commits (h : c.InStep P trail coming) (hdelivered : delivered inputs = coming)
    (hfits : Along (next P) (Fits P) c inputs) :
    ∃ old : List Block, old.length ≤ 3 - trail.length ∧
      (runActions P c inputs).filterMap Action.committed? = old ++ finals trail coming := by
  refine h.run_induction (motive := fun trail coming acts => ∃ old : List Block,
    old.length ≤ 3 - trail.length ∧ acts.filterMap Action.committed? = old ++ finals trail coming)
    hdelivered hfits ?_ ?_ ?_
  · intro trail
    exact ⟨[], Nat.zero_le _, by simp [finals]⟩
  · rintro trail coming acts later _ hcommits ⟨old, hlen, ih⟩
    exact ⟨old, hlen, by rw [List.filterMap_append, hcommits, ih, List.nil_append]⟩
  · intro c p trail coming acts later h hroom _ _ hcommits ih
    rw [List.filterMap_append, hcommits]
    exact h.finals_take hroom ih

end HotStuffCore

/-- A replica that is handed a chain of proposals in consecutive views, each on the certificate of
the one before, votes for every one of them and commits the chain in order, all but its last three
blocks. Up to three blocks from before the chain may be committed on the way. -/
theorem commits_three_later (P : Primitives) (c : HotStuffCore)
    (inputs : List (IterOrder × Event)) (ps : List Proposal)
    (hdelivered : HotStuffCore.delivered inputs = ps)
    (hparked : ∀ h, c.parkedProposals.get? h = none)
    (hknown : ∀ p ∈ ps.head?,
      c.state.pendingBlocks.containsKey p.block.header.parentHash = true)
    (hready : ∀ p ∈ ps.head?, Ready P c.state p ps.tail)
    (hchain : ps.IsChain (Proposal.Succeeds P))
    (hfits : Along (HotStuffCore.next P) (HotStuffCore.Fits P) c inputs) :
    (c.runActions P inputs).filterMap Action.vote? = ps.map (Proposal.vote P) ∧
      ∃ old : List Block, old.length ≤ 3 ∧
        (c.runActions P inputs).filterMap Action.committed? =
          old ++ (ps.take (ps.length - 3)).map Proposal.block := by
  have hheld : Trail P c.state [] := ⟨.nil, fun x hx => by simp at hx⟩
  have hstep : c.InStep P [] ps := ⟨hparked, hknown, hready, hheld, hchain⟩
  obtain ⟨old, hold, hcommits⟩ := hstep.commits hdelivered hfits
  refine ⟨hstep.votes hdelivered hfits, old, hold, ?_⟩
  rw [hcommits]
  simp [HotStuffCore.finals]

namespace Sample

def freshCore : HotStuffCore :=
  .withLimits 1 (.new primitives validators straightPool.genesis) .unboundedForTests

def straightFour : List Proposal := [d₁, d₂, d₃, d₄]

theorem ready_freshCore : Ready primitives freshCore.state d₁ [d₂, d₃, d₄] := by
  have honly : ∀ {h b}, freshCore.state.getPending h = some b →
      h = straightPool.genesis.hash primitives ∧ b = straightPool.genesis :=
    fun hb => HeaderPool.getPending_new hb
  have hparent : freshCore.state.getPending straightPool.genesis.header.parentHash = none := by
    decide +kernel
  constructor
  · decide
  · decide
  · decide
  · decide
  · intro h b hb
    obtain ⟨-, rfl⟩ := honly hb
    decide
  · intro h b b' hb hb'
    obtain ⟨-, rfl⟩ := honly hb
    rw [hparent] at hb'
    cases hb'
  · intro q hq
    obtain ⟨-, rfl⟩ := honly hq
    decide
  · decide +kernel
  · intro p' hp' h b hb
    obtain ⟨-, rfl⟩ := honly hb
    revert p'
    decide
  · decide

/-- Between the proposals the replica enters the views. -/
def straightFourInputs : List (IterOrder × Event) :=
  straightFour.flatMap fun p =>
    [(order, received p), (order, .pacemakerAdvance p.block.header.view)]

theorem straightFourInputs_commit :
    (freshCore.runActions primitives straightFourInputs).filterMap Action.vote? =
        straightFour.map (Proposal.vote primitives) ∧
      ∃ old : List Block, old.length ≤ 3 ∧
        (freshCore.runActions primitives straightFourInputs).filterMap Action.committed? =
          old ++ (straightFour.take 1).map Proposal.block := by
  refine commits_three_later primitives freshCore straightFourInputs straightFour rfl ?_ ?_ ?_ ?_ ?_
  · exact fun h => by simp [freshCore, HotStuffCore.withLimits, Table.get?]
  · decide +kernel
  · rintro p hp
    obtain rfl : d₁ = p := Option.some.inj hp
    exact ready_freshCore
  · decide +kernel
  · decide +kernel

end Sample

end Boule
