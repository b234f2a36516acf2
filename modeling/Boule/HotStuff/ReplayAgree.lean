import Boule.HotStuff.ReplayOrder

/-! Ready proposals that do not agree: two of them are replayed first, in either order. -/
namespace Boule

open HotStuffState

/-- The map yields `ks` for these keys. -/
def IterOrder.yielding {keys ks : List BlockHash} (hperm : ks.Perm keys) : IterOrder where
  apply l := if l = keys then ks else l
  perm l := by
    split_ifs with he
    · exact he ▸ hperm
    · exact .refl l

namespace HotStuffCore
variable {P : Primitives} {c : HotStuffCore}

/-! ### One proposal -/

theorem parkProposal_silent (P : Primitives) (c : HotStuffCore) (signed : Signed Proposal) :
    (c.parkProposal P signed).1.state = c.state ∧
      ∀ a ∈ (c.parkProposal P signed).2, a.isOutcome = false := by
  obtain ⟨hcache, hsafety⟩ := quiet_tryEmitBlockSyncRetry (c.insertParked P signed)
    signed.payload.block.header.parentHash signed.signer
    (signed.payload.block.header.height - 1) .unknownParentOnProposal
  have hrecord := (syncs_tryEmitBlockSyncRetry (c.insertParked P signed)
    signed.payload.block.header.parentHash signed.signer
    (signed.payload.block.header.height - 1) .unknownParentOnProposal).quiet
  refine ⟨hcache.state.trans (insertParked_state P c signed), fun a ha => ?_⟩
  refine Action.isOutcome_eq_false (hrecord a ha) (Bool.eq_false_iff.mpr ?_)
  exact List.filter_eq_nil_iff.mp hsafety a ha

/-- A resumed proposal is accepted, or parked again and nothing is said of it. -/
theorem resumeParked_cases (P : Primitives) (c : HotStuffCore) (k : BlockHash) :
    ((c.resumeParked P k).1.state = c.state ∧
      ∀ a ∈ (c.resumeParked P k).2, a.isOutcome = false) ∨
    ∃ signed, c.parkedProposals.get? k = some signed ∧
      (c.resumeParked P k).1.state = (c.state.acceptProposal P signed.payload).1 ∧
      (c.resumeParked P k).2 = (c.state.acceptProposal P signed.payload).2 := by
  unfold HotStuffCore.resumeParked onProposalReceived
  cases hget : c.parkedProposals.get? k with
  | none => exact .inl ⟨rfl, fun _ ha => absurd ha List.not_mem_nil⟩
  | some signed =>
    simp only
    split_ifs
    · exact .inl (parkProposal_silent P _ signed)
    · exact .inr ⟨signed, rfl, rfl, rfl⟩

/-! ### What later ones still do -/

theorem mem_of_vote_mem_replayIn (hkeys : c.ParkedByHash P) {ks : List BlockHash} {v : Vote}
    (hv : .broadcast (.vote v) ∈ (c.replayIn P ks).2) : v.blockHash ∈ ks := by
  induction ks generalizing c with
  | nil => exact absurd hv List.not_mem_nil
  | cons k ks ih =>
    rw [replayIn_cons, List.mem_append] at hv
    rcases hv with hv | hv
    · rcases resumeParked_cases P c k with ⟨-, hsilent⟩ | ⟨signed, hk, -, hactions⟩
      · exact absurd (hsilent _ hv) (by simp [Action.isOutcome])
      · rw [hactions, vote_mem_acceptProposal] at hv
        rw [hv.2, ← hkeys k signed hk]
        exact List.mem_cons_self ..
    · exact List.mem_cons_of_mem _ (ih (hkeys.resumeParked k) hv)

/-- A lock is above the one before. -/
theorem lockedHeight_lt_of_mem_replayIn {ks : List BlockHash} {l : Locked}
    (hl : .persist (.locked l) ∈ (c.replayIn P ks).2) : c.state.lockedHeight < l.height := by
  induction ks generalizing c with
  | nil => exact absurd hl List.not_mem_nil
  | cons k ks ih =>
    rw [replayIn_cons, List.mem_append] at hl
    rcases resumeParked_cases P c k with ⟨hstate, hsilent⟩ | ⟨signed, hk, hstate, hactions⟩
    · rcases hl with hl | hl
      · exact absurd (hsilent _ hl) (by simp [Action.isOutcome])
      · have hlt := ih hl
        rwa [hstate] at hlt
    · rcases hl with hl | hl
      · rw [hactions, locked_mem_acceptProposal] at hl
        exact ((AcceptCall.newLock_eq_some_iff P _ l).mp hl).2
      · have hle := lockedHeight_le_next P (c.state, signed.payload)
        have hlt := ih hl
        rw [hstate] at hlt
        exact hle.trans_lt hlt

/-- If only blocks above a height are there and still to come, only such a block is committed. -/
theorem lt_of_commit_mem_replayIn (hkeys : c.ParkedByHash P) {ks : List BlockHash} {height : ℕ}
    (hpending : ∀ x b, c.state.getPending x = some b → height < b.header.height)
    (hparked : ∀ k ∈ ks, ∀ signed, c.parkedProposals.get? k = some signed →
      height < signed.payload.block.header.height) {b : Block}
    (hb : .commit b ∈ (c.replayIn P ks).2) : height < b.header.height := by
  induction ks generalizing c with
  | nil => exact absurd hb List.not_mem_nil
  | cons k ks ih =>
    rw [replayIn_cons, List.mem_append] at hb
    have hlater : ∀ k' ∈ ks, ∀ signed, (c.resumeParked P k).1.parkedProposals.get? k' =
        some signed → height < signed.payload.block.header.height := fun k' hk' signed hget =>
      hparked k' (List.mem_cons_of_mem _ hk') signed (parked_resumeParked hkeys hget)
    rcases resumeParked_cases P c k with ⟨hstate, hsilent⟩ | ⟨signed, hk, hstate, hactions⟩
    · rcases hb with hb | hb
      · exact absurd (hsilent _ hb) (by simp [Action.isOutcome])
      · exact ih (hkeys.resumeParked k) (hstate ▸ hpending) hlater hb
    · have hinserted : ∀ x b, (c.state.insertPending P signed.payload.block).getPending x = some b →
          height < b.header.height := by
        intro x b hx
        rcases getPending_of_insertPending hx with ⟨-, rfl⟩ | hold
        · exact hparked k (List.mem_cons_self ..) signed hk
        · exact hpending x b hold
      rcases hb with hb | hb
      · rw [hactions, commit_mem_acceptProposal] at hb
        obtain ⟨b2, b3, hchain⟩ := threeChain_of_threeChainCommit hb
        exact hinserted _ b hchain.get_b1
      · refine ih (hkeys.resumeParked k) (fun x y hy => ?_) hlater hb
        rw [hstate, acceptProposal_getPending] at hy
        exact hinserted x y hy.1

/-! ### Two proposals, in either order -/

/-- All orders of the ready proposals emit the same. -/
def ActionsAgree (P : Primitives) (c : HotStuffCore) : Prop :=
  ∀ ks ks', ks.Perm c.readyParked → ks'.Perm c.readyParked → ∀ a, a.isOutcome = true →
    (a ∈ (c.replayIn P ks).2 ↔ a ∈ (c.replayIn P ks').2)

section
variable (hkeys : c.ParkedByHash P) (hj : JudgedApart P c.state c.readyProposals)
  {p q : Proposal} (hp : p ∈ c.readyProposals) (hq : q ∈ c.readyProposals) (hne : p ≠ q)

theorem upcoming_second (hp : p ∈ c.readyProposals) (hq : q ∈ c.readyProposals) (hne : p ≠ q) :
    Upcoming c.readyProposals [p] q where
  taken := List.forall_mem_singleton.mpr hp
  nodup := List.nodup_singleton p
  mem := hq
  new := fun hin => hne (List.mem_singleton.mp hin).symm

include hkeys

theorem exists_parked (hp : p ∈ c.readyProposals) : p.block.hash P ∈ c.readyParked ∧
    ∃ signed, c.parkedProposals.get? (p.block.hash P) = some signed ∧ signed.payload = p := by
  obtain ⟨k, hready, hk⟩ := mem_readyProposals_iff.mp hp
  obtain ⟨signed, hget, rfl⟩ := parked?_eq_some_iff.mp hk
  obtain rfl := hkeys k signed hget
  exact ⟨hready, signed, hget, rfl⟩

theorem hash_ne (hp : p ∈ c.readyProposals) (hq : q ∈ c.readyProposals) (hne : p ≠ q) :
    p.block.hash P ≠ q.block.hash P := fun he =>
  hne (distinct_readyProposals hkeys p hp q hq he)

/-- There is an order in which these two come first. -/
theorem exists_order (hp : p ∈ c.readyProposals) (hq : q ∈ c.readyProposals) (hne : p ≠ q) :
    ∃ ks, p.block.hash P ∉ ks ∧ q.block.hash P ∉ ks ∧
      (p.block.hash P :: q.block.hash P :: ks).Perm c.readyParked ∧
        (q.block.hash P :: p.block.hash P :: ks).Perm c.readyParked := by
  have hhash := hash_ne hkeys hp hq hne
  have hq' : q.block.hash P ∈ c.readyParked.erase (p.block.hash P) :=
    (List.mem_erase_of_ne hhash.symm).mpr (exists_parked hkeys hq).1
  have hperm : (p.block.hash P :: q.block.hash P ::
      (c.readyParked.erase (p.block.hash P)).erase (q.block.hash P)).Perm c.readyParked :=
    ((List.perm_cons_erase hq').symm.cons _).trans
      (List.perm_cons_erase (exists_parked hkeys hp).1).symm
  have hnodup := hperm.nodup_iff.mpr c.nodup_readyParked
  rw [List.nodup_cons, List.nodup_cons, List.mem_cons, not_or] at hnodup
  exact ⟨_, hnodup.1.2, hnodup.2.1, hperm, (List.Perm.swap _ _ _).trans hperm⟩

include hj hp

theorem takenUp_first : TakenUp P c [p] (c.resumeParked P (p.block.hash P)) := by
  obtain ⟨-, signed, hk, rfl⟩ := exists_parked hkeys hp
  have hu : Upcoming c.readyProposals [] signed.payload :=
    ⟨List.forall_mem_nil _, List.nodup_nil, hp, List.not_mem_nil⟩
  exact (TakenUp.nil P c).next hkeys hj hk hu (.singleton P c.state c.readyProposals _)

theorem mem_first_iff {ks : List BlockHash} {a : Action} :
    a ∈ (c.replayIn P (p.block.hash P :: ks)).2 ↔ a ∈ c.state.emits P c.readyProposals p ∨
      a ∈ ((c.resumeParked P (p.block.hash P)).1.replayIn P ks).2 := by
  rw [replayIn_cons, List.mem_append, (takenUp_first hkeys hj hp).replayed.actions]
  simp

theorem vote_first_iff {ks : List BlockHash} (hnew : p.block.hash P ∉ ks) :
    .broadcast (.vote ⟨p.block.header.view, p.block.hash P⟩) ∈
        (c.replayIn P (p.block.hash P :: ks)).2 ↔
      c.state.judgedVote P c.readyProposals p = true := by
  rw [mem_first_iff hkeys hj hp, vote_mem_emits, and_iff_left rfl]
  exact or_iff_left fun hv => hnew (mem_of_vote_mem_replayIn (hkeys.resumeParked _) hv)

include hq hne

theorem vote_second_iff {ks : List BlockHash} (hnew : q.block.hash P ∉ ks) :
    .broadcast (.vote ⟨q.block.header.view, q.block.hash P⟩) ∈
        (c.replayIn P (p.block.hash P :: q.block.hash P :: ks)).2 ↔
      (c.resumeParked P (p.block.hash P)).1.state.votesFor P q = true := by
  have hfirst := takenUp_first hkeys hj hp
  obtain ⟨-, signed, hk, rfl⟩ := exists_parked hkeys hq
  have hu := upcoming_second hp hq hne
  have hsecond := congrArg Prod.snd (hfirst.resumeParked_eq hkeys hj hk hu)
  have hother : ¬ (⟨signed.payload.block.header.view, signed.payload.block.hash P⟩ : Vote) =
      ⟨p.block.header.view, p.block.hash P⟩ := fun hsame =>
    hash_ne hkeys hp hq hne (congrArg Vote.blockHash hsame).symm
  have hrest : .broadcast (.vote ⟨signed.payload.block.header.view,
      signed.payload.block.hash P⟩) ∉ (HotStuffCore.replayIn P ((c.resumeParked P
        (p.block.hash P)).1.resumeParked P (signed.payload.block.hash P)).1 ks).2 := fun hv =>
    hnew (mem_of_vote_mem_replayIn ((hkeys.resumeParked _).resumeParked _) hv)
  rw [mem_first_iff hkeys hj hp, replayIn_cons, List.mem_append, hsecond, vote_mem_emits,
    vote_mem_acceptProposal, or_iff_left hrest, and_iff_left rfl]
  exact or_iff_right fun hv => hother hv.2

theorem votesFor_second_iff : (c.resumeParked P (p.block.hash P)).1.state.votesFor P q = true ↔
    (c.resumeParked P (p.block.hash P)).1.state.lastVotedView < q.block.header.view ∧
      c.state.passes P (c.state.withBlocks P c.readyProposals)
        (c.resumeParked P (p.block.hash P)).1.state.locked q = true :=
  (takenUp_first hkeys hj hp).replayed.votesFor_iff hj (upcoming_second hp hq hne)
    (distinct_readyProposals hkeys) (.singleton P c.state c.readyProposals p)

/-! ### What the orders decide -/

theorem vote_agree (hall : ActionsAgree P c) :
    c.state.judgedVote P c.readyProposals q = true ↔
      (c.resumeParked P (p.block.hash P)).1.state.votesFor P q = true := by
  obtain ⟨ks, hpnew, hqnew, horder, hother⟩ := exists_order hkeys hp hq hne
  have hfresh : q.block.hash P ∉ p.block.hash P :: ks :=
    List.not_mem_cons_of_ne_of_not_mem (hash_ne hkeys hp hq hne).symm hqnew
  rw [← vote_first_iff hkeys hj hq hfresh, ← vote_second_iff hkeys hj hp hq hne hqnew]
  exact hall _ _ hother horder _ rfl

/-- A vote for the one is no longer in the way of a vote for the other. -/
theorem view_lt (hall : ActionsAgree P c) (hvp : c.state.judgedVote P c.readyProposals p = true)
    (hvq : c.state.judgedVote P c.readyProposals q = true) :
    p.block.header.view < q.block.header.view := by
  have hvotes := (vote_agree hkeys hj hp hq hne hall).mp hvq
  have hlater := ((votesFor_second_iff hkeys hj hp hq hne).mp hvotes).1
  have hview := ((takenUp_first hkeys hj hp).replayed.voted p (.head _) hvp).1
  rwa [hview] at hlater

theorem lock_eq_or_lt (hall : ActionsAgree P c) {l l' : Locked}
    (hl : c.state.judgedLock P c.readyProposals p = some l)
    (hl' : c.state.judgedLock P c.readyProposals q = some l') : l = l' ∨ l.height < l'.height := by
  obtain ⟨ks, -, -, horder, hother⟩ := exists_order hkeys hp hq hne
  have hmem := (hall _ _ hother horder (.persist (.locked l')) rfl).mp
    ((mem_first_iff hkeys hj hq).mpr (.inl (locked_mem_emits.mpr hl')))
  rcases (mem_first_iff hkeys hj hp).mp hmem with hsame | hrest
  · rw [locked_mem_emits, hl] at hsame
    exact .inl (Option.some.inj hsame)
  · have hlt := lockedHeight_lt_of_mem_replayIn hrest
    have hmoved := (takenUp_first hkeys hj hp).replayed.moved p (.head _) l hl
    rw [lockedHeight, hmoved] at hlt
    exact .inr hlt

theorem commit_eq_or_lt (hall : ActionsAgree P c) {b b' : Block}
    (hb : c.state.judgedCommit P c.readyProposals p = some b)
    (hb' : c.state.judgedCommit P c.readyProposals q = some b') :
    b = b' ∨ b.header.height < b'.header.height := by
  obtain ⟨ks, hpnew, -, horder, hother⟩ := exists_order hkeys hp hq hne
  have hmem := (hall _ _ hother horder (.commit b') rfl).mp
    ((mem_first_iff hkeys hj hq).mpr (.inl (commit_mem_emits.mpr hb')))
  rcases (mem_first_iff hkeys hj hp).mp hmem with hsame | hrest
  · rw [commit_mem_emits, hb] at hsame
    exact .inl (Option.some.inj hsame)
  · refine .inr (lt_of_commit_mem_replayIn (hkeys.resumeParked _) ?_ ?_ hrest)
    · intro x y hy
      exact (((takenUp_first hkeys hj hp).replayed.pending x y).mp hy).2 p (.head _) b hb
    · intro k hk signed hget
      have hparked := parked_resumeParked hkeys hget
      have hready : k ∈ c.readyParked := horder.mem_iff.mp (List.mem_cons_of_mem _ hk)
      have hmem : signed.payload ∈ c.readyProposals := mem_readyProposals_iff.mpr
        ⟨k, hready, parked?_eq_some_iff.mpr ⟨signed, hparked, rfl⟩⟩
      have hdiff : signed.payload ≠ p := by
        rintro rfl
        rw [hkeys k signed hparked] at hpnew
        rcases List.mem_cons.mp hk with rfl | hk
        · exact hash_ne hkeys hp hq hne (hkeys _ signed hparked)
        · exact hpnew hk
      exact (hj.pruned _ hmem p hp hdiff b hb).1

theorem voteAfterLock_of_actionsAgree (hall : ActionsAgree P c) {l : Locked}
    (hl : c.state.judgedLock P c.readyProposals p = some l) :
    c.state.passes P (c.state.withBlocks P c.readyProposals) (some l) q =
        c.state.judgedVote P c.readyProposals q ∨
      c.state.judgedVote P c.readyProposals p = true ∧
        q.block.header.view ≤ p.block.header.view := by
  have hfirst := (takenUp_first hkeys hj hp).replayed
  have hvotes := vote_agree hkeys hj hp hq hne hall
  rw [votesFor_second_iff hkeys hj hp hq hne, hfirst.moved p (.head _) l hl] at hvotes
  cases hv : c.state.judgedVote P c.readyProposals p with
  | false =>
    have hview := (hfirst.unvoted (List.forall_mem_singleton.mpr hv)).1
    rw [hview, and_iff_right_of_imp fun hpass => (passes_iff.mp hpass).1] at hvotes
    exact .inl (Bool.eq_iff_iff.mpr hvotes.symm)
  | true =>
    have hview := (hfirst.voted p (.head _) hv).1
    rcases Nat.lt_or_ge p.block.header.view q.block.header.view with hlt | hle
    · rw [hview, and_iff_right hlt] at hvotes
      exact .inl (Bool.eq_iff_iff.mpr hvotes.symm)
    · exact .inr ⟨rfl, hle⟩

end

theorem agree_of_actionsAgree (hkeys : c.ParkedByHash P)
    (hj : JudgedApart P c.state c.readyProposals) (hall : ActionsAgree P c) :
    Agree P c.state c.readyProposals c.readyProposals where
  vote := by
    intro p hp q hq hvp hvq
    by_contra hne
    have hlt := view_lt hkeys hj hp hq hne hall hvp hvq
    have hgt := view_lt hkeys hj hq hp (Ne.symm hne) hall hvq hvp
    omega
  lock := by
    intro p hp q hq l hl l' hl'
    by_cases hne : p = q
    · exact Option.mem_unique hl (hne ▸ hl')
    have hlow := lock_eq_or_lt hkeys hj hp hq hne hall hl hl'
    have hhigh := lock_eq_or_lt hkeys hj hq hp (Ne.symm hne) hall hl' hl
    rcases hlow with heq | hlt
    · exact heq
    · rcases hhigh with heq | hgt
      · exact heq.symm
      · omega
  commit := by
    intro p hp q hq b hb b' hb'
    by_cases hne : p = q
    · exact Option.mem_unique hb (hne ▸ hb')
    have hlow := commit_eq_or_lt hkeys hj hp hq hne hall hb hb'
    have hhigh := commit_eq_or_lt hkeys hj hq hp (Ne.symm hne) hall hb' hb
    rcases hlow with heq | hlt
    · exact heq
    · rcases hhigh with heq | hgt
      · exact heq.symm
      · omega
  voteAfterLock := fun _ hm _ hq hne _ hl =>
    voteAfterLock_of_actionsAgree hkeys hj hm hq hne hall hl

theorem OrderIndependent.actionsAgree {v : ℕ} (h : c.OrderIndependent P v) :
    ActionsAgree P (c.enterView v) := by
  intro ks ks' hperm hperm' a ha
  have hsame := (h (.yielding hperm) (.yielding hperm')).actions a ha
  rw [mem_step_iff ha, mem_step_iff ha] at hsame
  simpa [IterOrder.yielding] using hsame

end HotStuffCore

/-- Over every run: entering a view with at most one ready proposal does not depend on the order of
the parked ones, and with ready proposals that are judged apart exactly if they agree. -/
theorem orderIndependent_iff (P : Primitives) (selfId : NodeId) (state : HotStuffState)
    (limits : CacheLimits) (inputs : List CoreInput) (v : ℕ) {c : HotStuffCore}
    (hc : run (HotStuffCore.apply P) (.withLimits selfId state limits) inputs = c) :
    ((c.enterView v).readyParked.length ≤ 1 → c.OrderIndependent P v) ∧
      (JudgedApart P (c.enterView v).state (c.enterView v).readyProposals →
        (c.OrderIndependent P v ↔ Agree P (c.enterView v).state
          (c.enterView v).readyProposals (c.enterView v).readyProposals)) := by
  have hkeys : c.ParkedByHash P := hc ▸ HotStuffCore.parkedByHash_run P selfId state limits inputs
  refine ⟨HotStuffCore.orderIndependent_of_length_le, fun hj => ⟨fun h => ?_, fun ha => ?_⟩⟩
  · have hentered : (c.enterView v).ParkedByHash P := hkeys
    exact HotStuffCore.agree_of_actionsAgree hentered hj h.actionsAgree
  · exact HotStuffCore.orderIndependent_of_agree hkeys hj ha

namespace Sample

/-- A hash map that yields its keys the other way round. -/
def backwards : IterOrder where
  apply := List.reverse
  perm := List.reverse_perm

def waiting (ps : List Proposal) : HotStuffCore :=
  run (HotStuffCore.apply primitives)
    (.withLimits 1 (.new primitives validators genesis) .unboundedForTests)
    (ps.map fun p => .event order (received p))

/-- Nothing below view 8 is voted for any more, and one of the two moves the lock. -/
theorem waiting_orderIndependent :
    (waiting [late₃, apart₂, apart₁, g₁, g₂, propose genesis 8 []]).OrderIndependent
      primitives 9 :=
  ((orderIndependent_iff primitives 1 (.new primitives validators genesis) .unboundedForTests
    ([late₃, apart₂, apart₁, g₁, g₂, propose genesis 8 []].map fun p => .event order (received p))
    9 rfl).2 (by decide)).mpr (by decide)

/-- The proposal of view 5 is voted for only if it is replayed before the one of view 6. -/
theorem waiting_not_orderIndependent :
    ¬ (waiting [late₃, apart₂, apart₁, g₁, g₂]).OrderIndependent primitives 7 := by
  intro h
  have hvote := (h order backwards).actions
    (.broadcast (.vote ⟨5, apart₂.block.hash primitives⟩)) rfl
  revert hvote
  decide

end Sample

end Boule
