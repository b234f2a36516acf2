import Boule.HotStuff.Evictions
import Boule.HotStuff.Judgement
import Boule.HotStuff.LockOrder

/-! Taking up the ready proposals one by one: where that leads, as a function of which of them
have been taken up. -/
namespace Boule

namespace HotStuffState

/-- What a replica that votes for the proposal sends and writes. -/
def voteActions (P : Primitives) (s : HotStuffState) (p : Proposal) : List Action :=
  .persist (.votedInView p.block.header.view) ::
    .broadcast (.vote ⟨p.block.header.view, p.block.hash P⟩) ::
      if shouldUpdateHighQc p.justify s then [.persist (.highQc p.justify)] else []

/-- What a proposal of these makes the replica send and write. -/
def emits (P : Primitives) (s : HotStuffState) (ready : List Proposal) (p : Proposal) :
    List Action :=
  (if s.judgedVote P ready p then s.voteActions P p else []) ++
    ((s.judgedLock P ready p).map fun l => .persist (.locked l)).toList ++
    ((s.judgedCommit P ready p).map Action.commit).toList

theorem mem_emits {P : Primitives} {s : HotStuffState} {ready : List Proposal} {p : Proposal}
    {a : Action} : a ∈ s.emits P ready p ↔
      s.judgedVote P ready p = true ∧ a ∈ s.voteActions P p ∨
        (∃ l, s.judgedLock P ready p = some l ∧ a = .persist (.locked l)) ∨
        ∃ c, s.judgedCommit P ready p = some c ∧ a = .commit c := by
  unfold emits
  simp only [List.mem_append, Option.mem_toList, Option.map_eq_some_iff, or_assoc,
    eq_comm (b := a)]
  cases s.judgedVote P ready p <;> simp

theorem mem_acceptProposal {P : Primitives} {s : HotStuffState} {p : Proposal} {a : Action} :
    a ∈ (s.acceptProposal P p).2 ↔ s.votesFor P p = true ∧ a ∈ s.voteActions P p ∨
      (∃ l, AcceptCall.newLock P (s, p) = some l ∧ a = .persist (.locked l)) ∨
      ∃ c, s.commits P p = some c ∧ a = .commit c := by
  rw [acceptProposal_actions, AcceptCall.lockActions_eq P (s, p)]
  unfold voteUpdates voteActions
  simp only [List.mem_append, Option.mem_toList, Option.map_eq_some_iff,
    eq_comm (b := a)]
  cases s.votesFor P p <;> cases shouldUpdateHighQc p.justify s <;> simp [or_assoc, or_left_comm]

section
variable {P : Primitives} {s : HotStuffState} {ready : List Proposal} {p : Proposal}

theorem vote_mem_emits {v : Vote} : .broadcast (.vote v) ∈ s.emits P ready p ↔
    s.judgedVote P ready p = true ∧ v = ⟨p.block.header.view, p.block.hash P⟩ := by
  rw [mem_emits, voteActions]
  cases shouldUpdateHighQc p.justify s <;> simp

theorem locked_mem_emits {l : Locked} : .persist (.locked l) ∈ s.emits P ready p ↔
    s.judgedLock P ready p = some l := by
  rw [mem_emits, voteActions]
  cases shouldUpdateHighQc p.justify s <;> simp

theorem commit_mem_emits {b : Block} : .commit b ∈ s.emits P ready p ↔
    s.judgedCommit P ready p = some b := by
  rw [mem_emits, voteActions]
  cases shouldUpdateHighQc p.justify s <;> simp

theorem locked_mem_acceptProposal {l : Locked} :
    .persist (.locked l) ∈ (s.acceptProposal P p).2 ↔ AcceptCall.newLock P (s, p) = some l := by
  rw [mem_acceptProposal, voteActions]
  cases shouldUpdateHighQc p.justify s <;> simp

end

/-- The replica after the proposals of `done`, whatever their order was. -/
structure Replayed (P : Primitives) (s : HotStuffState) (ready done : List Proposal)
    (s' : HotStuffState) (actions : List Action) : Prop where
  config : SameConfig s s'
  pending : ∀ h b, s'.getPending h = some b ↔
    (s.getPending h = some b ∨ ∃ p ∈ done, h = p.block.hash P ∧ b = p.block) ∧
      ∀ q ∈ done, ∀ c ∈ s.judgedCommit P ready q, c.header.height < b.header.height
  size : s'.pendingBlocks.size ≤ s.pendingBlocks.size +
    (done.filter fun p => !s.pendingBlocks.containsKey (p.block.hash P)).length
  moved : ∀ m ∈ done, ∀ l ∈ s.judgedLock P ready m, s'.locked = some l
  unmoved : (∀ m ∈ done, s.judgedLock P ready m = none) → s'.locked = s.locked
  voted : ∀ p ∈ done, s.judgedVote P ready p = true →
    s'.lastVotedView = p.block.header.view ∧
      s'.highQc = if shouldUpdateHighQc p.justify s then some p.justify else s.highQc
  unvoted : (∀ p ∈ done, s.judgedVote P ready p = false) →
    s'.lastVotedView = s.lastVotedView ∧ s'.highQc = s.highQc
  actions : ∀ a, a ∈ actions ↔ ∃ p ∈ done, a ∈ s.emits P ready p

theorem Replayed.nil (P : Primitives) (s : HotStuffState) (ready : List Proposal) :
    Replayed P s ready [] s [] where
  config := ⟨rfl, rfl, rfl, rfl, rfl⟩
  pending := by simp
  size := by simp
  moved := by simp
  unmoved := fun _ => rfl
  voted := by simp
  unvoted := fun _ => ⟨rfl, rfl⟩
  actions := by simp

/-- The next proposal to be taken up. -/
structure Upcoming (ready done : List Proposal) (p : Proposal) : Prop where
  taken : ∀ q ∈ done, q ∈ ready
  nodup : done.Nodup
  mem : p ∈ ready
  new : p ∉ done

theorem Upcoming.ne {ready done : List Proposal} {p q : Proposal} (hu : Upcoming ready done p)
    (hq : q ∈ done) : p ≠ q := fun he => hu.new (he ▸ hq)

namespace Replayed
variable {P : Primitives} {s s' : HotStuffState} {ready done : List Proposal}
  {actions : List Action} {p : Proposal}

theorem containsKey_parent (h : Replayed P s ready done s' actions) (hj : JudgedApart P s ready)
    (hu : Upcoming ready done p)
    (hparent : s.pendingBlocks.containsKey p.block.header.parentHash = true) :
    s'.pendingBlocks.containsKey p.block.header.parentHash = true := by
  obtain ⟨y, hy⟩ := (Table.containsKey_iff _ _).mp hparent
  rw [Table.containsKey_iff]
  refine ⟨y, (h.pending _ y).mpr ⟨.inl hy, fun q hq c hc => ?_⟩⟩
  have hne : p ≠ q := hu.ne hq
  exact (hj.pruned p hu.mem q (hu.taken q hq) hne c hc).2.1 y hy

/-- A block that was pending before stays until it is taken up itself. -/
theorem containsKey_own (h : Replayed P s ready done s' actions) (hj : JudgedApart P s ready)
    (hu : Upcoming ready done p)
    (hold : s.pendingBlocks.containsKey (p.block.hash P) = true) :
    s'.pendingBlocks.containsKey (p.block.hash P) = true := by
  obtain ⟨b, hb⟩ := (Table.containsKey_iff _ _).mp hold
  have hsame : b = p.block := hj.pending p hu.mem b hb
  rw [Table.containsKey_iff]
  refine ⟨b, (h.pending _ b).mpr ⟨.inl hb, fun q hq c hc => ?_⟩⟩
  rw [hsame]
  exact (hj.pruned p hu.mem q (hu.taken q hq) (hu.ne hq) c hc).1

theorem hasRoomFor (h : Replayed P s ready done s' actions) (hj : JudgedApart P s ready)
    (hu : Upcoming ready done p) : s'.HasRoomFor P p.block := by
  cases hold : s.pendingBlocks.containsKey (p.block.hash P) with
  | true => exact .inl (h.containsKey_own hj hu hold)
  | false =>
    right
    have hsub : (p :: done) ⊆ ready := List.cons_subset.mpr ⟨hu.mem, fun q hq => hu.taken q hq⟩
    have hperm := (List.nodup_cons.mpr ⟨hu.new, hu.nodup⟩).subperm hsub
    have hlen := (hperm.filter fun p => !s.pendingBlocks.containsKey (p.block.hash P)).length_le
    rw [List.filter_cons_of_pos (by simp [hold]), List.length_cons] at hlen
    have hroom := hj.room
    have hsize := h.size
    rw [h.config.pendingBlocksCapacity]
    omega

section
variable (h : Replayed P s ready done s' actions) (hj : JudgedApart P s ready)
  (hu : Upcoming ready done p) (hd : Distinct P ready) (hc : Agree P s ready done)
  (ha : Agree P s ready (p :: done))
include h hj hu

/-- The pending blocks with the proposal's own. -/
theorem getPending_insert (x : BlockHash) (b : Block) :
    (s'.insertPending P p.block).getPending x = some b ↔
      x = p.block.hash P ∧ b = p.block ∨ x ≠ p.block.hash P ∧ s'.getPending x = some b := by
  rw [(h.hasRoomFor hj hu).getPending_insertPending]
  split_ifs with he
  · simp [he, eq_comm]
  · simp [he]

include hd in
theorem within : (s'.insertPending P p.block).pendingBlocks.Within (s.withBlocks P ready) := by
  intro x b hb
  rw [get?_withBlocks hd hj.pending]
  rcases (h.getPending_insert hj hu x b).mp hb with ⟨rfl, rfl⟩ | ⟨-, hb⟩
  · exact .inr ⟨p, hu.mem, rfl, rfl⟩
  · obtain ⟨hold | ⟨q, hq, hx, hb⟩, -⟩ := (h.pending x b).mp hb
    · exact .inl hold
    · exact .inr ⟨q, hu.taken q hq, hx, hb⟩

theorem withBlock_within (hnone : ∀ q ∈ done, s.judgedCommit P ready q = none) :
    (s.withBlock P p).Within (s'.insertPending P p.block).pendingBlocks := by
  intro x b hb
  refine (h.getPending_insert hj hu x b).mpr ?_
  unfold withBlock at hb
  rw [Table.get?_insert] at hb
  split_ifs at hb with he
  · exact .inl ⟨he, (Option.some.inj hb).symm⟩
  · refine .inr ⟨he, (h.pending x b).mpr ⟨.inl hb, fun q hq c hc => ?_⟩⟩
    rw [Option.mem_def, hnone q hq] at hc
    cases hc

include hc in
theorem retain_within {q : Proposal} (hq : q ∈ done) {c : Block}
    (hcommit : s.judgedCommit P ready q = some c) :
    ((s.withBlock P p).retain fun _ b => c.header.height < b.header.height).Within
      (s'.insertPending P p.block).pendingBlocks := by
  intro x b hb
  obtain ⟨hb, habove⟩ := (Table.get?_retain_eq_some _ _ _ _).mp hb
  rw [decide_eq_true_iff] at habove
  refine (h.getPending_insert hj hu x b).mpr ?_
  unfold withBlock at hb
  rw [Table.get?_insert] at hb
  split_ifs at hb with he
  · exact .inl ⟨he, (Option.some.inj hb).symm⟩
  · refine .inr ⟨he, (h.pending x b).mpr ⟨.inl hb, fun q' hq' c' hc' => ?_⟩⟩
    rw [hc.commit q' hq' q hq c' hc' c hcommit]
    exact habove

include hd hc in
/-- What is pending by then is enough to judge the proposal. -/
theorem judgedAlike : JudgedAlike P s ready (s'.insertPending P p.block).pendingBlocks p := by
  have hwithin := h.within hj hu hd
  by_cases hcommit : ∃ q ∈ done, ∃ c, s.judgedCommit P ready q = some c
  · obtain ⟨q, hq, c, hcommit⟩ := hcommit
    have hne : p ≠ q := hu.ne hq
    have hjudged := (hj.pruned p hu.mem q (hu.taken q hq) hne c hcommit).2.2
    exact hjudged.between (h.retain_within hj hu hc hq hcommit) hwithin
  · have hnone : ∀ q ∈ done, s.judgedCommit P ready q = none := fun q hq =>
      Option.eq_none_iff_forall_ne_some.mpr fun c hsome => hcommit ⟨q, hq, c, hsome⟩
    exact (hj.alone p hu.mem).between (h.withBlock_within hj hu hnone) hwithin

omit h hj hu in
/-- Either none has moved the lock, or one has. -/
theorem locked_cases (h : Replayed P s ready done s' actions) :
    (s'.locked = s.locked ∧ ∀ m ∈ done, s.judgedLock P ready m = none) ∨
      ∃ m ∈ done, ∃ l, s.judgedLock P ready m = some l ∧ s'.locked = some l := by
  by_cases hmoved : ∃ m ∈ done, ∃ l, s.judgedLock P ready m = some l
  · obtain ⟨m, hm, l, hl⟩ := hmoved
    exact .inr ⟨m, hm, l, hl, h.moved m hm l hl⟩
  · have hnone : ∀ m ∈ done, s.judgedLock P ready m = none := fun m hm =>
      Option.eq_none_iff_forall_ne_some.mpr fun l hl => hmoved ⟨m, hm, l, hl⟩
    exact .inl ⟨h.unmoved hnone, hnone⟩

omit h hj hu in
/-- Either none has been voted for, or one has. -/
theorem voted_cases (h : Replayed P s ready done s' actions) :
    ((∀ q ∈ done, s.judgedVote P ready q = false) ∧ s'.lastVotedView = s.lastVotedView ∧
      s'.highQc = s.highQc) ∨
      ∃ q ∈ done, s.judgedVote P ready q = true ∧ s'.lastVotedView = q.block.header.view := by
  by_cases hvoted : ∃ q ∈ done, s.judgedVote P ready q = true
  · obtain ⟨q, hq, hv⟩ := hvoted
    exact .inr ⟨q, hq, hv, (h.voted q hq hv).1⟩
  · have hnone : ∀ q ∈ done, s.judgedVote P ready q = false := fun q hq =>
      Bool.eq_false_iff.mpr fun hv => hvoted ⟨q, hq, hv⟩
    exact .inl ⟨hnone, h.unvoted hnone⟩

omit h hj hu in
theorem lastVotedView_le (h : Replayed P s ready done s' actions) :
    s.lastVotedView ≤ s'.lastVotedView := by
  rcases h.voted_cases with ⟨-, hview, -⟩ | ⟨q, -, hv, hview⟩
  · exact hview.ge
  · have hlater := (passes_iff.mp hv).1
    omega

include hd hc in
/-- By then only the last-voted view and the lock are others. -/
theorem votesFor_iff : s'.votesFor P p = true ↔ s'.lastVotedView < p.block.header.view ∧
    s.passes P (s.withBlocks P ready) s'.locked p = true := by
  have halike := h.judgedAlike hj hu hd hc
  have hpasses : s.passes P (s'.insertPending P p.block).pendingBlocks s'.locked p =
      s.passes P (s.withBlocks P ready) s'.locked p := by
    rcases h.locked_cases with ⟨hsame, -⟩ | ⟨m, hm, l, hl, hsame⟩
    · rw [hsame]
      exact halike.vote
    · rw [hsame]
      exact halike.voteAfter m (hu.taken m hm) l hl
  have hvotes : s'.votesFor P p =
      s'.passes P (s'.insertPending P p.block).pendingBlocks s'.locked p := by
    unfold votesFor passes
    rw [insertPending_eq]
  have hle := h.lastVotedView_le
  rw [hvotes, ← hpasses, passes_iff, passes_iff]
  constructor
  · rintro ⟨hlater, hlock⟩
    exact ⟨hlater, by omega, hlock⟩
  · rintro ⟨hlater, -, hlock⟩
    exact ⟨hlater, hlock⟩

include hd ha

omit hj hd in
/-- A lock that has been moved changes the vote only for a view that is no longer open. -/
theorem passes_iff_judgedVote : s.passes P (s.withBlocks P ready) s'.locked p =
    s.judgedVote P ready p ∨ ∃ m ∈ done, s.judgedVote P ready m = true ∧
      p.block.header.view ≤ m.block.header.view := by
  rcases h.locked_cases with ⟨hsame, -⟩ | ⟨m, hm, l, hl, hsame⟩
  · exact .inl (by rw [hsame])
  · have hne : m ≠ p := (hu.ne hm).symm
    rw [hsame]
    exact (ha.voteAfterLock m (.tail _ hm) p (.head _) hne l hl).imp_right fun hlow => ⟨m, hm, hlow⟩

/-- A proposal is voted for as if it were taken up first. -/
theorem votesFor_eq : s'.votesFor P p = s.judgedVote P ready p := by
  have hjudged := h.passes_iff_judgedVote hu ha
  have hother : ∀ q ∈ done, s.judgedVote P ready q = true → s.judgedVote P ready p = false := by
    intro q hq hvote
    refine Bool.eq_false_iff.mpr fun hv => hu.new ?_
    exact ha.vote p (.head _) q (.tail _ hq) hv hvote ▸ hq
  rw [Bool.eq_iff_iff, h.votesFor_iff hj hu hd (ha.mono fun _ => List.mem_cons_of_mem p)]
  rcases h.voted_cases with ⟨hnone, hview, -⟩ | ⟨q, hq, hvote, hview⟩
  · rw [hview, and_iff_right_of_imp fun hpass => (passes_iff.mp hpass).1]
    rcases hjudged with heq | ⟨m, hm, hv, -⟩
    · rw [heq]
    · rw [hnone m hm] at hv
      cases hv
  · rw [hview, hother q hq hvote]
    refine iff_of_false ?_ Bool.false_ne_true
    rintro ⟨hlater, hpass⟩
    rcases hjudged with heq | ⟨m, hm, hv, hle⟩
    · rw [heq, hother q hq hvote] at hpass
      cases hpass
    · rw [ha.vote m (.tail _ hm) q (.tail _ hq) hv hvote] at hle
      exact absurd hlater (by omega)

theorem newLock_iff (l : Locked) : AcceptCall.newLock P (s', p) = some l ↔
    s.judgedLock P ready p = some l ∧ ∀ m ∈ done, s.judgedLock P ready m = none := by
  have halike := h.judgedAlike hj hu hd (ha.mono fun _ => List.mem_cons_of_mem p)
  have hcandidate : s'.lockCandidate P p = twoChainCandidate { s with
      pendingBlocks := (s'.insertPending P p.block).pendingBlocks } p.block.header.parentHash :=
    twoChainCandidate_congr rfl _
  have hmoves : s.judgedLock P ready p = some l ↔
      s'.lockCandidate P p = some l ∧ s.lockedHeight < l.height := by
    rw [← halike.lock, movesTo, Option.filter_eq_some_iff, hcandidate, decide_eq_true_iff]
  rw [AcceptCall.newLock_eq_some_iff, hmoves]
  rcases h.locked_cases with ⟨hsame, hnone⟩ | ⟨m, hm, l', hl', hsame⟩
  · have hheight : s'.lockedHeight = s.lockedHeight := by
      rw [lockedHeight, hsame, lockedHeight]
    rw [hheight]
    exact (and_iff_left hnone).symm
  · have hheight : s'.lockedHeight = l'.height := by
      rw [lockedHeight, hsame]
      rfl
    have hhigher : s.lockedHeight < l'.height := by
      have hfilter := (Option.filter_eq_some_iff.mp hl').2
      exact of_decide_eq_true hfilter
    rw [hheight]
    constructor
    · rintro ⟨hc, hlt⟩
      have hl := hmoves.mpr ⟨hc, by omega⟩
      rw [ha.lock p (.head _) m (.tail _ hm) l hl l' hl'] at hlt
      exact absurd hlt (Nat.lt_irrefl _)
    · rintro ⟨-, hnone⟩
      rw [hnone m hm] at hl'
      cases hl'

theorem commits_iff (c : Block) : s'.commits P p = some c ↔
    s.judgedCommit P ready p = some c ∧ ∀ q ∈ done, s.judgedCommit P ready q = none := by
  have hwithin := h.within hj hu hd
  have hcommits : s'.commits P p =
      s.wouldCommit (s'.insertPending P p.block).pendingBlocks p :=
    threeChainCommit_congr rfl _
  rw [hcommits]
  by_cases hcommit : ∃ q ∈ done, ∃ c, s.judgedCommit P ready q = some c
  · obtain ⟨q, hq, c', hc'⟩ := hcommit
    have hne : p ≠ q := hu.ne hq
    constructor
    · intro hc
      have hjudged := wouldCommit_mono hwithin hc
      obtain rfl := ha.commit p (.head _) q (.tail _ hq) c hjudged c' hc'
      -- The block was pruned when it was committed.
      obtain ⟨b2, b3, hchain⟩ := wouldCommit_eq_some_iff.mp hc
      rcases (h.getPending_insert hj hu _ c).mp hchain.get_b1 with
        ⟨-, hown⟩ | ⟨-, hold⟩
      · have hlt := (hj.pruned p hu.mem q (hu.taken q hq) hne c hc').1
        rw [← hown] at hlt
        exact absurd hlt (Nat.lt_irrefl _)
      · have hlt := ((h.pending _ c).mp hold).2 q hq c hc'
        exact absurd hlt (Nat.lt_irrefl _)
    · rintro ⟨-, hnone⟩
      rw [hnone q hq] at hc'
      cases hc'
  · have hnone : ∀ q ∈ done, s.judgedCommit P ready q = none := fun q hq =>
      Option.eq_none_iff_forall_ne_some.mpr fun c hc => hcommit ⟨q, hq, c, hc⟩
    have hlower := h.withBlock_within hj hu hnone
    rw [option_eq_of_between (fun _ => wouldCommit_mono hlower) (fun _ => wouldCommit_mono hwithin)
      (hj.commit p hu.mem)]
    exact (and_iff_left hnone).symm

theorem prunes_iff {b : Block}
    (hbefore : ∀ q ∈ done, ∀ c ∈ s.judgedCommit P ready q, c.header.height < b.header.height) :
    (∀ c, s'.commits P p = some c → c.header.height < b.header.height) ↔
      ∀ c ∈ s.judgedCommit P ready p, c.header.height < b.header.height := by
  have hcommits := h.commits_iff hj hu hd ha
  constructor
  · intro hprune c hc
    by_cases hfirst : ∀ q ∈ done, s.judgedCommit P ready q = none
    · exact hprune c ((hcommits c).mpr ⟨hc, hfirst⟩)
    · simp only [not_forall] at hfirst
      obtain ⟨q, hq, hsome⟩ := hfirst
      obtain ⟨c', hc'⟩ := Option.ne_none_iff_exists'.mp hsome
      rw [ha.commit p (.head _) q (.tail _ hq) c hc c' hc']
      exact hbefore q hq c' hc'
  · intro hprune c hc
    exact hprune c ((hcommits c).mp hc).1

theorem getPending_next (x : BlockHash) (b : Block) :
    (s'.acceptProposal P p).1.getPending x = some b ↔
      (s.getPending x = some b ∨ ∃ q ∈ done ++ [p], x = q.block.hash P ∧ b = q.block) ∧
        ∀ q ∈ done ++ [p], ∀ c ∈ s.judgedCommit P ready q, c.header.height < b.header.height := by
  rw [acceptProposal_getPending, h.getPending_insert hj hu,
    List.forall_mem_append, List.forall_mem_singleton]
  constructor
  · rintro ⟨hinserted, hprune⟩
    have hbefore : ∀ q ∈ done, ∀ c ∈ s.judgedCommit P ready q,
        c.header.height < b.header.height := by
      intro q hq c hc
      rcases hinserted with ⟨-, rfl⟩ | ⟨-, hb⟩
      · exact (hj.pruned p hu.mem q (hu.taken q hq) (hu.ne hq) c hc).1
      · exact ((h.pending x b).mp hb).2 q hq c hc
    refine ⟨?_, hbefore, (h.prunes_iff hj hu hd ha hbefore).mp hprune⟩
    rcases hinserted with hown | ⟨-, hb⟩
    · exact .inr ⟨p, List.mem_append_right _ (List.mem_singleton_self p), hown⟩
    · refine ((h.pending x b).mp hb).1.imp_right ?_
      rintro ⟨q, hq, hown⟩
      exact ⟨q, List.mem_append_left _ hq, hown⟩
  · rintro ⟨hsource, hbefore, hprune⟩
    refine ⟨?_, (h.prunes_iff hj hu hd ha hbefore).mpr hprune⟩
    by_cases hx : x = p.block.hash P
    · refine .inl ⟨hx, ?_⟩
      rcases hsource with hb | ⟨q, hq, hxq, hb⟩
      · exact hj.pending p hu.mem b (hx ▸ hb)
      · have hready : q ∈ ready := by
          rcases List.mem_append.mp hq with hq | hq
          · exact hu.taken q hq
          · exact List.mem_singleton.mp hq ▸ hu.mem
        rw [hb, hd p hu.mem q hready (hx.symm.trans hxq)]
    · refine .inr ⟨hx, (h.pending x b).mpr ⟨hsource.imp_right ?_, hbefore⟩⟩
      rintro ⟨q, hq, hxq, hb⟩
      rcases List.mem_append.mp hq with hq | hq
      · exact ⟨q, hq, hxq, hb⟩
      · exact absurd (List.mem_singleton.mp hq ▸ hxq) hx

omit hd ha in
theorem size_next : (s'.acceptProposal P p).1.pendingBlocks.size ≤ s.pendingBlocks.size +
    ((done ++ [p]).filter fun p => !s.pendingBlocks.containsKey (p.block.hash P)).length := by
  have hsize := h.size
  have hafter := size_acceptProposal_le P s' p
  have hinsert := size_insertPending (P := P) (s := s') (b := p.block)
  rw [List.filter_append, List.length_append]
  cases hold : s.pendingBlocks.containsKey (p.block.hash P) with
  | false =>
    rw [List.filter_cons_of_pos (by simp [hold])]
    simp only [List.filter_nil, List.length_singleton]
    split_ifs at hinsert <;> omega
  | true =>
    rw [if_pos (.inl (h.containsKey_own hj hu hold))] at hinsert
    omega

theorem locked_next : (∀ m ∈ done ++ [p], ∀ l ∈ s.judgedLock P ready m,
      (s'.acceptProposal P p).1.locked = some l) ∧
    ((∀ m ∈ done ++ [p], s.judgedLock P ready m = none) →
      (s'.acceptProposal P p).1.locked = s.locked) := by
  have hnewLock := h.newLock_iff hj hu hd ha
  have hnext : (s'.acceptProposal P p).1.locked =
      (AcceptCall.newLock P (s', p)).or s'.locked := AcceptCall.next_locked P (s', p)
  rw [List.forall_mem_append, List.forall_mem_append, List.forall_mem_singleton,
    List.forall_mem_singleton, hnext]
  rcases h.locked_cases with ⟨hsame, hnone⟩ | ⟨m, hm, l, hl, hsame⟩
  · have heq : AcceptCall.newLock P (s', p) = s.judgedLock P ready p :=
      Option.ext fun l => (hnewLock l).trans (and_iff_left hnone)
    rw [heq, hsame]
    refine ⟨⟨fun m hm l hl => ?_, fun l hl => ?_⟩, fun ⟨_, hnone⟩ => by rw [hnone, Option.none_or]⟩
    · rw [Option.mem_def, hnone m hm] at hl
      cases hl
    · rw [Option.mem_def.mp hl, Option.some_or]
  · have heq : AcceptCall.newLock P (s', p) = none := by
      refine Option.eq_none_iff_forall_ne_some.mpr fun l' hl' => ?_
      rw [((hnewLock l').mp hl').2 m hm] at hl
      cases hl
    rw [heq, hsame, Option.none_or]
    refine ⟨⟨fun m' hm' l' hl' => ?_, fun l' hl' => ?_⟩, fun ⟨hnone, _⟩ => ?_⟩
    · rw [ha.lock m' (.tail _ hm') m (.tail _ hm) l' hl' l hl]
    · rw [ha.lock p (.head _) m (.tail _ hm) l' hl' l hl]
    · rw [hnone m hm] at hl
      cases hl

omit hj hd in
theorem highQc_of_judgedVote (hvote : s.judgedVote P ready p = true) : s'.highQc = s.highQc := by
  rcases h.voted_cases with ⟨-, -, hsame⟩ | ⟨q, hq, hv, -⟩
  · exact hsame
  · exact absurd (ha.vote p (.head _) q (.tail _ hq) hvote hv ▸ hq) hu.new

theorem voted_next : (∀ q ∈ done ++ [p], s.judgedVote P ready q = true →
      (s'.acceptProposal P p).1.lastVotedView = q.block.header.view ∧
        (s'.acceptProposal P p).1.highQc =
          if shouldUpdateHighQc q.justify s then some q.justify else s.highQc) ∧
    ((∀ q ∈ done ++ [p], s.judgedVote P ready q = false) →
      (s'.acceptProposal P p).1.lastVotedView = s.lastVotedView ∧
        (s'.acceptProposal P p).1.highQc = s.highQc) := by
  rw [List.forall_mem_append, List.forall_mem_append, List.forall_mem_singleton,
    List.forall_mem_singleton, acceptProposal_lastVotedView, acceptProposal_highQc,
    h.votesFor_eq hj hu hd ha]
  cases hvote : s.judgedVote P ready p with
  | true =>
    have hqc := h.highQc_of_judgedVote hu ha hvote
    have hupdate : shouldUpdateHighQc p.justify s' = shouldUpdateHighQc p.justify s :=
      shouldUpdateHighQc_congr hqc
    refine ⟨⟨fun q hq hv => ?_, fun _ => ?_⟩, fun ⟨_, hnone⟩ => absurd hnone (by simp)⟩
    · exact absurd (ha.vote p (.head _) q (.tail _ hq) hvote hv ▸ hq) hu.new
    · simp [hupdate, hqc]
  | false =>
    simp only [Bool.false_eq_true, if_false, false_and, IsEmpty.forall_iff, and_true]
    exact ⟨h.voted, h.unvoted⟩

/-- What an earlier one has sent or written already is not repeated. -/
theorem actions_next (a : Action) : a ∈ actions ++ (s'.acceptProposal P p).2 ↔
    ∃ q ∈ done ++ [p], a ∈ s.emits P ready q := by
  have hnewLock := h.newLock_iff hj hu hd ha
  have hcommits := h.commits_iff hj hu hd ha
  have hvote : s.judgedVote P ready p = true → s'.voteActions P p = s.voteActions P p := by
    intro hv
    unfold voteActions
    rw [shouldUpdateHighQc_congr (h.highQc_of_judgedVote hu ha hv)]
  have hlast : p ∈ done ++ [p] := List.mem_append_right _ (List.mem_singleton_self p)
  rw [List.mem_append, h.actions, mem_acceptProposal, h.votesFor_eq hj hu hd ha]
  constructor
  · rintro (⟨q, hq, hemit⟩ | ⟨hv, hmem⟩ | ⟨l, hl, rfl⟩ | ⟨c, hc, rfl⟩)
    · exact ⟨q, List.mem_append_left _ hq, hemit⟩
    · exact ⟨p, hlast, mem_emits.mpr (.inl ⟨hv, hvote hv ▸ hmem⟩)⟩
    · exact ⟨p, hlast, mem_emits.mpr (.inr (.inl ⟨l, ((hnewLock l).mp hl).1, rfl⟩))⟩
    · exact ⟨p, hlast, mem_emits.mpr (.inr (.inr ⟨c, ((hcommits c).mp hc).1, rfl⟩))⟩
  · rintro ⟨q, hq, hemit⟩
    rcases List.mem_append.mp hq with hq | hq
    · exact .inl ⟨q, hq, hemit⟩
    obtain rfl := List.mem_singleton.mp hq
    rcases mem_emits.mp hemit with ⟨hv, hmem⟩ | ⟨l, hl, rfl⟩ | ⟨c, hc, rfl⟩
    · exact .inr (.inl ⟨hv, (hvote hv).symm ▸ hmem⟩)
    · by_cases hfirst : ∀ m ∈ done, s.judgedLock P ready m = none
      · exact .inr (.inr (.inl ⟨l, (hnewLock l).mpr ⟨hl, hfirst⟩, rfl⟩))
      · simp only [not_forall] at hfirst
        obtain ⟨m, hm, hsome⟩ := hfirst
        obtain ⟨l', hl'⟩ := Option.ne_none_iff_exists'.mp hsome
        obtain rfl := ha.lock m (.tail _ hm) q (.head _) l' hl' l hl
        exact .inl ⟨m, hm, mem_emits.mpr (.inr (.inl ⟨l', hl', rfl⟩))⟩
    · by_cases hfirst : ∀ m ∈ done, s.judgedCommit P ready m = none
      · exact .inr (.inr (.inr ⟨c, (hcommits c).mpr ⟨hc, hfirst⟩, rfl⟩))
      · simp only [not_forall] at hfirst
        obtain ⟨m, hm, hsome⟩ := hfirst
        obtain ⟨c', hc'⟩ := Option.ne_none_iff_exists'.mp hsome
        obtain rfl := ha.commit m (.tail _ hm) q (.head _) c' hc' c hc
        exact .inl ⟨m, hm, mem_emits.mpr (.inr (.inr ⟨c', hc', rfl⟩))⟩

theorem next : Replayed P s ready (done ++ [p]) (s'.acceptProposal P p).1
    (actions ++ (s'.acceptProposal P p).2) where
  config := h.config.trans (sameConfig_acceptProposal P s' p)
  pending := h.getPending_next hj hu hd ha
  size := h.size_next hj hu
  moved := (h.locked_next hj hu hd ha).1
  unmoved := (h.locked_next hj hu hd ha).2
  voted := (h.voted_next hj hu hd ha).1
  unvoted := (h.voted_next hj hu hd ha).2
  actions := h.actions_next hj hu hd ha

end

end Replayed

end HotStuffState

end Boule
