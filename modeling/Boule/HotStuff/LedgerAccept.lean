import Boule.HotStuff.Ledger

/-! Accepting a justified proposal keeps the invariants of the replica and of the log. -/
namespace Boule.Agreement

variable {P : Primitives} {U : HeaderPool P} {vs : ValidatorSet} {byz : Finset ValidatorId}

/-- A lock ranked by view never goes back, and reaches the candidate. -/
theorem lockView_acceptProposal {s : HotStuffState} {p : Proposal}
    (hr : AcceptCall.LockRanked P (s, p)) : s.lockView ≤ (s.acceptProposal P p).1.lockView ∧
      ∀ l ∈ s.lockCandidate P p, l.view ≤ (s.acceptProposal P p).1.lockView := by
  have hl : (s.acceptProposal P p).1.lockView = ((s.nextLock P p).map Locked.view).getD 0 := by
    rw [HotStuffState.lockView, HotStuffState.acceptProposal_locked]
  rw [hl, HotStuffState.nextLock]
  cases hc : s.lockCandidate P p with
  | none => exact ⟨Nat.le_refl _, by simp⟩
  | some l =>
    have hiff : s.lockedHeight < l.height ↔ s.lockView < l.view := hr l hc
    simp only [Option.mem_some_iff, forall_eq']
    split_ifs with hlt
    · exact ⟨(hiff.mp hlt).le, Nat.le_refl _⟩
    · exact ⟨Nat.le_refl _, Nat.le_of_not_lt fun h => hlt (hiff.mpr h)⟩

/-- A path through the pending blocks is a path through their headers. -/
theorem extends_of_path {log : NetLog} {i : ValidatorId} {s : HotStuffState}
    (hs : NodeOk U vs byz i log s) {h anc : BlockHash} {a : BlockHeader}
    (hpath : Relation.ReflTransGen (ParentIn s.pendingBlocks) h anc) (ha : a ∈ U.headers)
    (hanc : P.headerHash a = anc) {x : BlockHeader} (hk : Known U vs byz log x)
    (hx : P.headerHash x = h) : U.Extends x a := by
  induction hpath using Relation.ReflTransGen.head_induction_on generalizing x with
  | refl => exact U.hash_injective x hk.mem a ha (hx.trans hanc.symm) ▸ .refl
  | head hstep hrest ih =>
    obtain ⟨b, hb, hpar⟩ := hstep
    obtain rfl : b.header = x :=
      U.hash_injective _ (hs.known hb).mem _ hk.mem ((hs.keyed hb).trans hx.symm)
    rcases hk.eq_genesis_or_parent with hg | ⟨y, hp, hy⟩
    · have hzero : b.header.parentHash = 0 := by
        rw [hg]
        rfl
      rcases Relation.ReflTransGen.cases_head hrest with he | ⟨h', ⟨b', hb', -⟩, -⟩
      · exact absurd (hanc.trans (he.symm.trans (hpar.symm.trans hzero))) (U.hash_ne_zero a ha)
      · exact absurd ((hs.keyed hb').trans (hpar.symm.trans hzero))
          (U.hash_ne_zero _ (hs.known hb').mem)
    · exact .head hp (ih hy (hp.hash_eq.symm.trans hpar))

theorem eq_add_one_of_addU64 {a b : ℕ} (h : addU64 a 1 = b) (hlt : a < b) : b = a + 1 := by
  unfold addU64 at h
  omega

/-- The pending parent of a pending block, in terms of headers. -/
theorem NodeOk.parent {log : NetLog} {i : ValidatorId} {s : HotStuffState}
    (hs : NodeOk U vs byz i log s) {h : BlockHash} {b q : Block} (hb : s.getPending h = some b)
    (hq : s.getPending b.header.parentHash = some q) : U.Parent b.header q.header :=
  ⟨(hs.known hb).mem, (hs.known hq).mem, (hs.keyed hq).symm⟩

/-- What the commit rule finds under a justified proposal. -/
theorem commitOk_of_commits {log : NetLog} {i : ValidatorId} {s : HotStuffState} {p : Proposal}
    {q : BlockHeader} {d : Block}
    (hs : NodeOk U vs byz i log (s.insertPending P p.block)) (hon : U.ProposedOn p q)
    (hc : 0 < q.view → Certified U vs byz log q) (hd : s.commits P p = some d) :
    ∃ b₂ b₃ : Block, CommitOk U vs byz log d.header b₂.header b₃.header ∧
      ⟨b₂.header.view, b₂.header.height, b₃.header.parentHash⟩ ∈ s.lockCandidate P p := by
  obtain ⟨b₂, b₃, h₃, h₂, h₁, hv₃, hn₃, hn₂⟩ := threeChain_of_threeChainCommit hd
  have hp₃ : U.Parent b₃.header b₂.header := hs.parent h₃ h₂
  have hp₂ : U.Parent b₂.header d.header := hs.parent h₂ h₁
  have hq : b₃.header = q := U.hash_injective _ (hs.known h₃).mem _ hon.parent.parent_mem
    ((hs.keyed h₃).trans hon.justify_hash)
  obtain ⟨hk₂, -, hlt₃, -⟩ := (hs.known h₃).parent hp₃
  obtain ⟨-, -, hlt₂, -⟩ := hk₂.parent hp₂
  refine ⟨b₂, b₃, ⟨hp₃, hp₂, eq_add_one_of_addU64 hn₂ hlt₂, eq_add_one_of_addU64 hn₃ hlt₃,
    hs.known h₃, hq ▸ hc (by rw [← hq]; omega)⟩, ?_⟩
  rw [Option.mem_def, HotStuffState.lockCandidate_eq_some_iff]
  refine ⟨b₃, b₂, ?_, h₂, rfl⟩
  rw [hon.parent.hash_eq, ← hon.justify_hash]
  exact h₃

section accept
variable {log : NetLog} {i : ValidatorId} {s : HotStuffState} {p : Proposal} {q : BlockHeader}

/-- The grandparent of a proposal is the lock's candidate or gave way to a commit. -/
theorem locked_of_grandparent (hs : NodeOk U vs byz i log (s.insertPending P p.block))
    (hr : AcceptCall.LockRanked P (s, p))
    (hp : s.pendingBlocks.containsKey p.block.header.parentHash = true)
    (hroom : s.HasRoomFor P p.block) {y z : BlockHeader} (hy : U.Parent p.block.header y)
    (hz : U.Parent y z) : z.view ≤ (s.acceptProposal P p).1.lockView ∨
      ∃ d, (i, .commit d) ∈ log ∧ d.header.height = z.height ∧
        d.header.view + 1 ≤ (s.acceptProposal P p).1.lockView := by
  obtain ⟨hmono, hcand⟩ := lockView_acceptProposal hr
  obtain ⟨yb, hyb⟩ : ∃ yb, (s.insertPending P p.block).getPending p.block.header.parentHash =
      some yb := by
    obtain ⟨q, hq⟩ := (Table.containsKey_iff _ _).mp hp
    rw [hroom.getPending_insertPending]
    split_ifs
    · exact ⟨_, rfl⟩
    · exact ⟨q, hq⟩
  obtain rfl : yb.header = y := U.hash_injective _ (hs.known hyb).mem _ hy.parent_mem
    ((hs.keyed hyb).trans hy.hash_eq)
  rcases hs.rooted hyb with hg | ⟨zb, hzb⟩ | ⟨d, hd, hh, hv⟩
  · exact absurd hg hz.ne_genesis
  · obtain rfl : zb.header = z := U.hash_injective _ (hs.known hzb).mem _ hz.parent_mem
      ((hs.keyed hzb).trans hz.hash_eq)
    exact .inl (hcand _ ((s.lockCandidate_eq_some_iff P p _).mpr ⟨yb, zb, hyb, hzb, rfl⟩))
  · obtain ⟨-, hheight, -, -⟩ := (hs.known hyb).parent hz
    refine .inr ⟨d, hd, by omega, Nat.le_trans ?_ hmono⟩
    simpa [HotStuffState.lockView] using hv

/-- A block whose parent the proposal's commit prunes sits right above that commit. -/
theorem rooted_acceptProposal (hs : NodeOk U vs byz i log (s.insertPending P p.block))
    (hon : U.ProposedOn p q) (hc : 0 < q.view → Certified U vs byz log q)
    (hr : AcceptCall.LockRanked P (s, p)) {h : BlockHash} {b : Block}
    (hb : (s.acceptProposal P p).1.getPending h = some b) : b.header = U.genesis.header ∨
      (∃ y, (s.acceptProposal P p).1.getPending b.header.parentHash = some y) ∨
      ∃ d, (i, .commit d) ∈ log ++ entries P i (s, p) ∧
        d.header.height + 1 = b.header.height ∧
        d.header.view + 1 ≤ (s.acceptProposal P p).1.lockView := by
  obtain ⟨hmono, hcand⟩ := lockView_acceptProposal hr
  obtain ⟨hb₁, habove⟩ := (s.acceptProposal_getPending P p h b).mp hb
  rcases hs.rooted hb₁ with hg | ⟨y, hy⟩ | ⟨d, hd, hh, hv⟩
  · exact .inl hg
  · by_cases hkeep : ∀ d, s.commits P p = some d → d.header.height < y.header.height
    · exact .inr (.inl ⟨y, (s.acceptProposal_getPending P p _ y).mpr ⟨hy, hkeep⟩⟩)
    · push Not at hkeep
      obtain ⟨d, hd, hle⟩ := hkeep
      obtain ⟨b₂, b₃, hok, hl⟩ := commitOk_of_commits hs hon hc hd
      have hlt := habove d hd
      obtain ⟨-, hheight, -, -⟩ := (hs.known hb₁).parent (hs.parent hb₁ hy)
      have hview : b₂.header.view ≤ (s.acceptProposal P p).1.lockView := hcand _ hl
      have hview₂ := hok.view₂
      refine .inr (.inr ⟨d, ?_, by omega, by omega⟩)
      exact List.mem_append_right _ ((commit_mem_entries i s p d).mpr hd)
  · have hlv : (s.insertPending P p.block).lockView = s.lockView := by
      simp [HotStuffState.lockView]
    exact .inr (.inr ⟨d, List.mem_append_left _ hd, hh, by omega⟩)

theorem lock_acceptProposal (hs : NodeOk U vs byz i log (s.insertPending P p.block)) {l : Locked}
    (hl : (s.acceptProposal P p).1.locked = some l) :
    ∃ x, P.headerHash x = l.blockHash ∧ x.view = l.view ∧ Known U vs byz log x ∧
      (x = U.genesis.header ∨ Certified U vs byz log x) := by
  have hold : s.locked = some l → _ := fun hl => hs.lock (by simpa using hl)
  rw [HotStuffState.acceptProposal_locked, HotStuffState.nextLock] at hl
  cases hcd : s.lockCandidate P p with
  | none =>
    rw [hcd] at hl
    exact hold hl
  | some l' =>
    rw [hcd] at hl
    simp only at hl
    split_ifs at hl with hlt
    · obtain rfl := Option.some.inj hl
      obtain ⟨y, z, hy, hz, rfl⟩ := (s.lockCandidate_eq_some_iff P p _).mp hcd
      obtain ⟨hkz, -, -, hcert⟩ := (hs.known hy).parent (hs.parent hy hz)
      exact ⟨z.header, hs.keyed hz, rfl, hkz, hcert⟩
    · exact hold hl

theorem votes_le_acceptProposal (hs : NodeOk U vs byz i log (s.insertPending P p.block))
    {v : Vote} (hv : (i, .broadcast (.vote v)) ∈ log ++ entries P i (s, p)) :
    v.view ≤ (s.acceptProposal P p).1.lastVotedView := by
  rw [HotStuffState.acceptProposal_lastVotedView]
  rcases List.mem_append.mp hv with hv | hv
  · have hle := hs.votes_le hv
    rw [HotStuffState.insertPending_lastVotedView] at hle
    split_ifs with hvote
    · have hlt := lastVotedView_lt_of_safeToVote hvote
      rw [HotStuffState.insertPending_lastVotedView] at hlt
      omega
    · exact hle
  · obtain ⟨hvote, rfl⟩ := (vote_mem_entries i s p v).mp hv
    rw [if_pos hvote]

theorem votesLocked_acceptProposal (hs : NodeOk U vs byz i log (s.insertPending P p.block))
    (hk : Known U vs byz log p.block.header)
    (hp : s.pendingBlocks.containsKey p.block.header.parentHash = true)
    (hr : AcceptCall.LockRanked P (s, p)) (hroom : s.HasRoomFor P p.block) :
    VotesLocked U i (log ++ entries P i (s, p)) (s.acceptProposal P p).1.lockView := by
  intro v x y z hv hx hy hz hpos
  have hcases : z.view ≤ (s.acceptProposal P p).1.lockView ∨ ∃ d, (i, .commit d) ∈ log ∧
      d.header.height = z.height ∧ d.header.view + 1 ≤ (s.acceptProposal P p).1.lockView := by
    rcases List.mem_append.mp hv with hv | hv
    · have hlv : (s.insertPending P p.block).lockView = s.lockView := by
        simp [HotStuffState.lockView]
      exact hs.votes_locked.mono (hlv ▸ (lockView_acceptProposal hr).1) v x y z hv hx hy hz hpos
    · obtain ⟨-, rfl⟩ := (vote_mem_entries i s p v).mp hv
      obtain rfl : x = p.block.header := U.hash_injective _ hy.child_mem _ hk.mem hx
      exact locked_of_grandparent hs hr hp hroom hy hz
  rcases hcases with hle | ⟨d, hd, hh⟩
  · exact .inl hle
  · exact .inr ⟨d, List.mem_append_left _ hd, hh⟩

theorem NodeOk.acceptProposal (hs : NodeOk U vs byz i log (s.insertPending P p.block))
    (hon : U.ProposedOn p q) (hk : Known U vs byz log p.block.header)
    (hc : 0 < q.view → Certified U vs byz log q)
    (hp : s.pendingBlocks.containsKey p.block.header.parentHash = true)
    (hr : AcceptCall.LockRanked P (s, p)) (hroom : s.HasRoomFor P p.block) :
    NodeOk U vs byz i (log ++ entries P i (s, p)) (s.acceptProposal P p).1 := by
  have hsub : ∀ e ∈ log, e ∈ log ++ entries P i (s, p) := fun e he => List.mem_append_left _ he
  have hpend : ∀ {h b}, (s.acceptProposal P p).1.getPending h = some b →
      (s.insertPending P p.block).getPending h = some b := fun {h b} hb =>
    ((s.acceptProposal_getPending P p h b).mp hb).1
  constructor
  · exact fun hb => hs.keyed (hpend hb)
  · exact fun hb => (hs.known (hpend hb)).mono hsub
  · exact fun hb => rooted_acceptProposal hs hon hc hr hb
  · intro l hl
    obtain ⟨x, hx, hv, hkx, hcx⟩ := lock_acceptProposal hs hl
    exact ⟨x, hx, hv, hkx.mono hsub, hcx.imp_right (·.mono hsub)⟩
  · exact fun hv => votes_le_acceptProposal hs hv
  · exact votesLocked_acceptProposal hs hk hp hr hroom

/-- The lock a vote is cast under. -/
theorem voteOk_of_votesFor (hs : NodeOk U vs byz i log (s.insertPending P p.block))
    (hon : U.ProposedOn p q) (hk : Known U vs byz log p.block.header)
    (hv : s.votesFor P p = true) :
    VoteOk U vs byz i log ⟨p.block.header.view, p.block.hash P⟩ p.block.header q
      (s.insertPending P p.block).lockView := by
  refine ⟨rfl, rfl, hk, hon.parent, fun {v'} hv' => ?_, ?_, hs.votes_locked⟩
  · exact (hs.votes_le hv').trans_lt (lastVotedView_lt_of_safeToVote hv)
  · unfold HotStuffState.lockView
    cases hl : (s.insertPending P p.block).locked with
    | none => exact .inl rfl
    | some l =>
      obtain ⟨a, ha, hav, hka, hcert⟩ := hs.lock hl
      rcases lock_of_safeToVote hv hl with hpath | hlt
      · rcases hcert with hg | hcert
        · left
          show l.view = 0
          rw [← hav, hg]
          rfl
        · exact .inr (.inl ⟨a, hcert, extends_of_path hs hpath hka.mem ha hk rfl, hav⟩)
      · exact .inr (.inr (hon.justify_view ▸ hlt))

/-- Bookkeeping entries do not disturb what a vote says about the past. -/
theorem VoteOk.append_persist {v : Vote} {x y : BlockHeader} {l : ℕ} {new : NetLog}
    (h : VoteOk U vs byz i log v x y l) (hnew : ∀ e ∈ new, ∃ u, e.2 = .persist u) :
    VoteOk U vs byz i (log ++ new) v x y l := by
  have hsub : ∀ e ∈ log, e ∈ log ++ new := fun e he => List.mem_append_left _ he
  have hvote : ∀ {v'}, (i, .broadcast (.vote v')) ∈ log ++ new →
      (i, .broadcast (.vote v')) ∈ log := by
    intro v' hv'
    rcases List.mem_append.mp hv' with hv' | hv'
    · exact hv'
    · obtain ⟨u, hu⟩ := hnew _ hv'
      cases hu
  refine { h with
    known := h.known.mono hsub
    later := fun hv' => h.later (hvote hv')
    safe := h.safe.imp_right fun hsafe => hsafe.imp_left fun ⟨a, hc, he, hv⟩ =>
      ⟨a, hc.mono hsub, he, hv⟩
    locked := ?_ }
  intro v' x' y' z' hv' hx hy hz hpos
  exact (h.locked v' x' y' z' (hvote hv') hx hy hz hpos).imp_right fun ⟨d, hd, hh⟩ =>
    ⟨d, hsub _ hd, hh⟩

theorem logOk_acceptProposal (hlog : LogOk U vs byz log)
    (hs : NodeOk U vs byz i log (s.insertPending P p.block)) (hon : U.ProposedOn p q)
    (hk : Known U vs byz log p.block.header) (hc : 0 < q.view → Certified U vs byz log q) :
    LogOk U vs byz (log ++ entries P i (s, p)) := by
  have hsplit := s.acceptProposal_safety P p
  generalize hbook : (if s.votesFor P p then
    [Action.persist (.votedInView p.block.header.view)] else []) ++ s.lockActions P p = book
    at hsplit
  have hpersist : ∀ e ∈ book.map fun a => (i, a), ∃ u, e.2 = .persist u := by
    intro e he
    obtain ⟨a, ha, rfl⟩ := List.mem_map.mp he
    rw [← hbook, List.mem_append] at ha
    rcases ha with ha | ha
    · split_ifs at ha
      · exact ⟨_, List.mem_singleton.mp ha⟩
      · simp at ha
    · obtain ⟨l, hl⟩ := HotStuffState.mem_lockActions P s p ha
      exact ⟨_, hl⟩
  have h₁ := hlog.append_persist hpersist
  have h₂ : LogOk U vs byz (log ++ (book.map fun a => (i, a)) ++
      (if s.votesFor P p then
        [.broadcast (.vote ⟨p.block.header.view, p.block.hash P⟩)]
      else []).map fun a => (i, a)) := by
    split_ifs with hv
    · exact h₁.concat ⟨_, _, _, (voteOk_of_votesFor hs hon hk hv).append_persist hpersist⟩
    · simpa using h₁
  rw [entries, AcceptCall.safetyActions, hsplit, List.map_append, List.map_append,
    ← List.append_assoc, ← List.append_assoc]
  cases hd : s.commits P p with
  | none => simpa using h₂
  | some d =>
    obtain ⟨b₂, b₃, hok, -⟩ := commitOk_of_commits hs hon hc hd
    refine h₂.concat ⟨_, _, hok.mono fun e he => ?_⟩
    exact List.mem_append_left _ (List.mem_append_left _ he)

end accept

end Boule.Agreement
