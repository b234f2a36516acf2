import Boule.HotStuff.LedgerAccept
import Boule.Lib.ChainSafety

/-! Agreement of committed blocks. The lock moves by height; where that is also a move by view,
and no pending block is evicted, committed blocks lie on one chain. -/
namespace Boule

namespace Agreement
variable {P : Primitives} {U : HeaderPool P} {vs : ValidatorSet} {byz : Finset ValidatorId}

variable (U vs byz)

structure NetOk (net : Net) : Prop where
  nodes : ∀ i, NodeOk U vs byz i (safetyLog net.log) (net.cores i).state
  log : LogOk U vs byz (safetyLog net.log)
  parked : ∀ {i h signed}, (net.cores i).parkedProposals.get? h = some signed →
    Justified U vs byz (safetyLog net.log) signed.payload

variable {U vs byz}

theorem NodeOk.same {i : ValidatorId} {log : NetLog} {s s' : HotStuffState}
    (hs : HotStuffState.SameSafety s s') (h : NodeOk U vs byz i log s) :
    NodeOk U vs byz i log s' := by
  have hget : ∀ k, s'.getPending k = s.getPending k := fun k => by
    unfold HotStuffState.getPending
    rw [hs.pendingBlocks]
  have hlv : s'.lockView = s.lockView := by
    unfold HotStuffState.lockView
    rw [hs.locked]
  constructor
  · exact fun hb => h.keyed (hget _ ▸ hb)
  · exact fun hb => h.known (hget _ ▸ hb)
  · intro k b hb
    rw [hget, hlv]
    exact h.rooted (hget k ▸ hb)
  · exact fun hl => h.lock (hs.locked ▸ hl)
  · exact fun hv => hs.lastVotedView ▸ h.votes_le hv
  · exact hlv ▸ h.votes_locked

/-- Entries of other replicas keep the invariant. -/
theorem NodeOk.mono {i : ValidatorId} {log log' : NetLog} {s : HotStuffState}
    (hsub : ∀ e ∈ log, e ∈ log') (hown : ∀ {a}, (i, a) ∈ log' → (i, a) ∈ log)
    (h : NodeOk U vs byz i log s) : NodeOk U vs byz i log' s := by
  constructor
  · exact h.keyed
  · exact fun hb => (h.known hb).mono hsub
  · intro k b hb
    rcases h.rooted hb with hg | hq | ⟨d, hd, hh⟩
    · exact .inl hg
    · exact .inr (.inl hq)
    · exact .inr (.inr ⟨d, hsub _ hd, hh⟩)
  · intro l hl
    obtain ⟨x, hx, hv, hk, hc⟩ := h.lock hl
    exact ⟨x, hx, hv, hk.mono hsub, hc.imp_right (·.mono hsub)⟩
  · exact fun hv => h.votes_le (hown hv)
  · intro v x y z hv hx hy hz hpos
    exact (h.votes_locked v x y z (hown hv) hx hy hz hpos).imp_right fun ⟨d, hd, hh⟩ =>
      ⟨d, hsub _ hd, hh⟩

theorem nodeOk_new (i : ValidatorId) (capacity : ℕ) : NodeOk U vs byz i []
    ((HotStuffState.new P vs U.genesis).setPendingBlocksLimit capacity) := by
  constructor
  · intro h b hb
    obtain ⟨rfl, rfl⟩ := HeaderPool.getPending_new hb
    rfl
  · intro h b hb
    obtain ⟨rfl, rfl⟩ := HeaderPool.getPending_new hb
    exact .genesis
  · intro h b hb
    obtain ⟨rfl, rfl⟩ := HeaderPool.getPending_new hb
    exact .inl rfl
  · intro l hl
    cases hl
  · intro v hv
    simp at hv
  · intro v x y z hv
    simp at hv

theorem netOk_start (limits : ValidatorId → CacheLimits) :
    NetOk U vs byz (Net.start P vs U.genesis limits) where
  nodes := fun i => nodeOk_new i (limits i).pendingBlocksCapacity
  log := .nil
  parked := fun {i h signed} hs => by
    have hn : Table.get? (∅ : Table BlockHash (Signed Proposal)) h = some signed := hs
    simp at hn

/-- The replica that takes the step keeps its invariant, and so does the log. -/
theorem nodeOk_step {net : Net} {d : Delivery} (h : NetOk U vs byz net)
    (hadm : Admissible U vs byz net.log d.event) (hlock : LocksByView P net d) :
    LogOk U vs byz (safetyLog (net.deliver P d).log) ∧
      NodeOk U vs byz d.node (safetyLog (net.deliver P d).log)
        ((net.cores d.node).step P d.order d.event).1.state := by
  have hjust : ∀ call ∈ (net.cores d.node).stepCalls P d.order d.event,
      Justified U vs byz (safetyLog net.log) call.2 := by
    intro call hcall
    obtain ⟨signed, hp, hev | ⟨k, hk⟩⟩ := HotStuffCore.mem_stepCalls hcall
    · rw [hp]
      exact (hadm.justified hev).safetyLog
    · exact hp ▸ h.parked hk
  rw [safetyLog_deliver]
  have hinv := Linked.invariant (entries P d.node)
    (fun log s => (∀ e ∈ safetyLog net.log, e ∈ log) ∧ LogOk U vs byz log ∧
      NodeOk U vs byz d.node log s)
    (fun hs hJ => ⟨hJ.1, hJ.2.1, hJ.2.2.same hs⟩)
    (fun call hcall hp hJ => ?_)
    (HotStuffCore.handles_step P d.order (net.cores d.node) d.event).linked
    ⟨fun e he => he, h.log, h.nodes d.node⟩
  · exact hinv.2
  · obtain ⟨hsub, hlog, hnode⟩ := hJ
    obtain ⟨hrank, hroom⟩ := hlock call hcall
    obtain ⟨q, hon, hk, hc⟩ := known_of_justified hnode ((hjust call hcall).mono hsub) hp
    have hins := hnode.insertPending hk hp hroom
    exact ⟨fun e he => List.mem_append_left _ (hsub e he),
      logOk_acceptProposal hlog hins hon hk hc,
      hins.acceptProposal hon hk hc hp hrank hroom⟩

theorem NetOk.deliver {net : Net} {d : Delivery} (h : NetOk U vs byz net)
    (hadm : Admissible U vs byz net.log d.event) (hlock : LocksByView P net d) :
    NetOk U vs byz (net.deliver P d) := by
  obtain ⟨hlog, hnode⟩ := nodeOk_step h hadm hlock
  have hsub : ∀ e ∈ safetyLog net.log, e ∈ safetyLog (net.deliver P d).log := by
    intro e he
    rw [safetyLog_deliver]
    exact List.mem_append_left _ he
  have hcore : ∀ i, (net.deliver P d).cores i = if i = d.node then
      ((net.cores d.node).step P d.order d.event).1 else net.cores i := fun i =>
    Function.update_apply ..
  constructor
  · intro i
    rw [hcore]
    split_ifs with hi
    · rw [hi]
      exact hnode
    · refine (h.nodes i).mono hsub fun {a} ha => ?_
      rw [safetyLog_deliver, List.mem_append] at ha
      rcases ha with ha | ha
      · exact ha
      · obtain ⟨call, -, hcall⟩ := List.mem_flatMap.mp ha
        obtain ⟨a', -, ha'⟩ := List.mem_map.mp hcall
        exact absurd (congrArg Prod.fst ha').symm hi
  · exact hlog
  · intro i k signed hs
    rw [hcore] at hs
    split_ifs at hs with hi
    · rcases (HotStuffCore.handles_step P d.order (net.cores d.node) d.event).parked hs
        with he | ⟨k', hk'⟩
      · exact (hadm.justified he.symm).safetyLog.mono hsub
      · exact (h.parked hk').mono hsub
    · exact (h.parked hs).mono hsub

/-! ### The chain of a log -/

/-- A replica's votes are in the order of their views. -/
theorem vote_mem_of_view_le {log pre post : NetLog} {i : ValidatorId} {v v' : Vote}
    (hlog : LogOk U vs byz log) (hv : log = pre ++ (i, .broadcast (.vote v)) :: post)
    (hv' : (i, .broadcast (.vote v')) ∈ log) (hle : v'.view ≤ v.view) :
    v' = v ∨ (i, .broadcast (.vote v')) ∈ pre := by
  rw [hv, List.mem_append, List.mem_cons] at hv'
  rcases hv' with h | h | h
  · exact .inr h
  · left
    injection h with _ h
    injection h with h
    injection h
  · obtain ⟨post₁, post₂, rfl⟩ := List.append_of_mem h
    obtain ⟨x, y, l, hok⟩ := hlog (pre ++ (i, .broadcast (.vote v)) :: post₁)
      (i, .broadcast (.vote v')) post₂ (by simpa using hv)
    have hlt : v.view < v'.view := hok.later (by simp)
    omega

theorem vote_unique {log : NetLog} {i : ValidatorId} {v v' : Vote} (hlog : LogOk U vs byz log)
    (hv : (i, .broadcast (.vote v)) ∈ log) (hv' : (i, .broadcast (.vote v')) ∈ log)
    (heq : v'.view = v.view) : v' = v := by
  obtain ⟨pre, post, hsplit⟩ := List.append_of_mem hv
  rcases vote_mem_of_view_le hlog hsplit hv' heq.le with h | h
  · exact h
  · obtain ⟨x, y, l, hok⟩ := hlog pre _ post hsplit
    have hlt := hok.later h
    omega

variable (U vs byz)

/-- The known headers, certified by prefixes of the log. -/
def chain (log : NetLog) : ChainSafety.Chain BlockHeader where
  parent := fun x y => U.Parent x y ∧ Known U vs byz log x
  view := BlockHeader.view
  height := BlockHeader.height
  cert := fun t x => Certified U vs byz (log.take t) x

variable {U vs byz}

theorem chain_extends {log : NetLog} {x a : BlockHeader} (hk : Known U vs byz log x)
    (h : U.Extends x a) : ChainSafety.Extends (chain U vs byz log) x a := by
  induction h using Relation.ReflTransGen.head_induction_on with
  | refl => exact .refl
  | head hp _ ih => exact .head ⟨hp, hk⟩ (ih (hk.parent hp).1)

theorem extends_of_chain {log : NetLog} {x a : BlockHeader}
    (h : ChainSafety.Extends (chain U vs byz log) x a) : U.Extends x a := by
  induction h with
  | refl => exact .refl
  | tail _ hp ih => exact ih.tail hp.1

theorem Certified.of_take {log : NetLog} {t : ℕ} {x : BlockHeader}
    (h : Certified U vs byz (log.take t) x) : Certified U vs byz log x :=
  h.mono fun _ he => List.mem_of_mem_take he

/-- A committed header other than genesis heads a three-chain of certified headers. -/
theorem committed_of_commitOk {log : NetLog} {pre post : NetLog} {e : ValidatorId × Action}
    (hlog : log = pre ++ e :: post) {d b₂ b₃ : BlockHeader} (h : CommitOk U vs byz pre d b₂ b₃)
    (hpos : 0 < d.view) : ChainSafety.Committed (chain U vs byz log) d := by
  have htake : log.take pre.length = pre := by rw [hlog, List.take_left]
  have hsub : ∀ e' ∈ pre, e' ∈ log := fun e' he' => hlog ▸ List.mem_append_left _ he'
  obtain ⟨hk₂, -, -, hc₂⟩ := h.known.parent h.parent₃
  obtain ⟨hk₁, -, -, hc₁⟩ := hk₂.parent h.parent₂
  have hv₂ := h.view₂
  have hv₃ := h.view₃
  have hg : U.genesis.header.view = 0 := rfl
  refine ⟨hpos, pre.length, b₂, b₃, ⟨h.parent₃, h.known.mono hsub⟩, ⟨h.parent₂, hk₂.mono hsub⟩,
    hv₂, ?_, ?_, ?_, ?_⟩
  · show b₃.view = d.view + 2
    omega
  · show Certified U vs byz (log.take pre.length) d
    rw [htake]
    refine hc₁.resolve_left ?_
    rintro rfl
    omega
  · show Certified U vs byz (log.take pre.length) b₂
    rw [htake]
    refine hc₂.resolve_left ?_
    rintro rfl
    omega
  · show Certified U vs byz (log.take pre.length) b₃
    rw [htake]
    exact h.certified

section rules
variable {log : NetLog}

/-- The honest voter that two certified headers share, at the moment of its vote for `b`. -/
theorem exists_vote_before (hlog : LogOk U vs byz log)
    (hz : 3 * Quorum.weight vs.weightAt (vs.indicesOf byz) < vs.totalWeight) {t t' : ℕ}
    {b x : BlockHeader} (hb : Certified U vs byz (log.take t) b)
    (hx : Certified U vs byz (log.take t') x) (hlt : x.view < b.view) :
    ∃ k < t, ∃ i v q l, VoteOk U vs byz i (log.take k) ⟨b.view, P.headerHash b⟩ b q l ∧
      v.blockHash = P.headerHash x ∧ (i, .broadcast (.vote v)) ∈ log.take k := by
  obtain ⟨qc, hv, hh, hback⟩ := hb.qc
  obtain ⟨qc', hv', hh', hback'⟩ := hx.qc
  obtain ⟨i, hi, hi'⟩ := exists_common_voter hz hback hback'
  rw [hv, hh] at hi
  obtain ⟨pre, post, hsplit⟩ := List.append_of_mem hi
  have hlen : pre.length < t := by
    have h := congrArg List.length hsplit
    simp only [List.length_take, List.length_append, List.length_cons] at h
    omega
  have hsplit' : log = pre ++ (i, .broadcast (.vote ⟨b.view, P.headerHash b⟩)) ::
      (post ++ log.drop t) := by
    rw [← List.cons_append, ← List.append_assoc, ← hsplit, List.take_append_drop]
  have htake : log.take pre.length = pre := by
    rw [hsplit', List.take_left]
  obtain ⟨x₀, q, l, hok⟩ := hlog pre _ _ hsplit'
  obtain rfl : x₀ = b := U.hash_injective _ hok.known.mem _ hb.mem hok.hash_eq
  refine ⟨pre.length, hlen, i, ⟨qc'.view, qc'.blockHash⟩, q, l, htake.symm ▸ hok, hh', ?_⟩
  rw [htake]
  rcases vote_mem_of_view_le hlog hsplit' (List.mem_of_mem_take hi') (by rw [hv']; exact hlt.le)
    with h | h
  · have := congrArg Vote.view h
    simp only at this
    omega
  · exact h

/-- The vote for `b` shows that its voter's lock protects the grandparent of `x`. -/
theorem evidence_of_vote (hlog : LogOk U vs byz log) {k : ℕ} {i : ValidatorId} {v : Vote}
    {b q x y z : BlockHeader} {l : ℕ}
    (hok : VoteOk U vs byz i (log.take k) ⟨b.view, P.headerHash b⟩ b q l)
    (hx : v.blockHash = P.headerHash x) (hv : (i, .broadcast (.vote v)) ∈ log.take k)
    (hy : U.Parent x y) (hz : U.Parent y z) (hpos : 0 < z.view) :
    ChainSafety.Evidence (chain U vs byz log) k b z l := by
  have hsub : ∀ e ∈ log.take k, e ∈ log := fun e he => List.mem_of_mem_take he
  have hlocked := hok.locked v x y z hv hx.symm hy hz hpos
  have hgv : U.genesis.header.view = 0 := rfl
  have hkz : Known U vs byz (log.take k) z ∧ Certified U vs byz (log.take k) z := by
    obtain ⟨pre, post, hsplit⟩ := List.append_of_mem hv
    obtain ⟨x₀, y₀, l₀, hok₀⟩ := hlog pre _ (post ++ log.drop k) (by
      rw [← List.cons_append, ← List.append_assoc, ← hsplit, List.take_append_drop])
    obtain rfl : x₀ = x :=
      U.hash_injective _ hok₀.known.mem _ hy.child_mem (hok₀.hash_eq.trans hx)
    have hpre : ∀ e ∈ pre, e ∈ log.take k := fun e he => hsplit ▸ List.mem_append_left _ he
    obtain ⟨hkz, -, -, hc⟩ := (hok₀.known.parent hy).1.parent hz
    refine ⟨hkz.mono hpre, (hc.resolve_left ?_).mono hpre⟩
    rintro rfl
    omega
  constructor
  · rcases hok.safe with hl | ⟨a, ha, hext, hav⟩ | hlt
    · rcases hlocked with h | ⟨d, -, -, h⟩ <;> omega
    · exact .inl ⟨a, ha, chain_extends (hok.known.mono hsub) hext, hav⟩
    · obtain ⟨-, -, -, hc⟩ := hok.known.parent hok.parent
      refine .inr ⟨q, ⟨hok.parent, hok.known.mono hsub⟩, hc.resolve_left ?_, hlt⟩
      rintro rfl
      omega
  · refine hlocked.imp_right fun ⟨d, hd, hh, hdl⟩ => ?_
    obtain ⟨pre, post, hsplit⟩ := List.append_of_mem (hsub _ hd)
    obtain ⟨b₂, b₃, hcok⟩ := hlog pre _ post hsplit
    have hkd := ((hcok.known.parent hcok.parent₃).1.parent hcok.parent₂).1
    have hdpos : 0 < d.header.view := by
      rcases Nat.eq_zero_or_pos d.header.view with h0 | h
      · have hg : d.header.height = 0 := by
          rw [hkd.eq_genesis_of_view h0]
          rfl
        rcases hkz.1.eq_genesis_or_parent with rfl | ⟨w, hw, -⟩
        · omega
        · obtain ⟨-, hheight, -, -⟩ := hkz.1.parent hw
          omega
      · exact h
    exact ⟨d.header, committed_of_commitOk hsplit hcok hdpos, hh, hkz.2, hdl⟩

/-- The log of a run follows the rules of the three-chain argument. -/
theorem rules_chain (hlog : LogOk U vs byz log)
    (hz : 3 * Quorum.weight vs.weightAt (vs.indicesOf byz) < vs.totalWeight) :
    ChainSafety.Rules (chain U vs byz log) where
  parent_height := fun hp => (hp.2.parent hp.1).2.1
  cert_unique := fun {t t' b b'} hb hb' hv => by
    obtain ⟨qc, hqv, hqh, hback⟩ := (Certified.of_take hb).qc
    obtain ⟨qc', hqv', hqh', hback'⟩ := (Certified.of_take hb').qc
    obtain ⟨i, hi, hi'⟩ := exists_common_voter hz hback hback'
    have hveq : qc'.view = qc.view := hqv'.trans (Eq.trans hv.symm hqv.symm)
    have h := congrArg Vote.blockHash (vote_unique hlog hi hi' hveq)
    exact U.hash_injective _ hb.mem _ hb'.mem (hqh.symm.trans (Eq.trans h.symm hqh'))
  evidence := fun {t t' b x y z} hb hx hy hz' hlt hpos => by
    obtain ⟨k, hk, i, v, q, l, hok, hvx, hv⟩ := exists_vote_before hlog hz hb hx hlt
    exact ⟨k, hk, l, evidence_of_vote hlog hok hvx hv hy.1 hz'.1 hpos⟩

theorem comparable_of_commits (hlog : LogOk U vs byz log)
    (hz : 3 * Quorum.weight vs.weightAt (vs.indicesOf byz) < vs.totalWeight)
    {i j : ValidatorId} {c d : Block} (hc : (i, .commit c) ∈ log) (hd : (j, .commit d) ∈ log) :
    U.Extends c.header d.header ∨ U.Extends d.header c.header := by
  obtain ⟨pre, post, hsplit⟩ := List.append_of_mem hc
  obtain ⟨pre', post', hsplit'⟩ := List.append_of_mem hd
  obtain ⟨c₂, c₃, hcok⟩ := hlog pre _ post hsplit
  obtain ⟨d₂, d₃, hdok⟩ := hlog pre' _ post' hsplit'
  have hkc := ((hcok.known.parent hcok.parent₃).1.parent hcok.parent₂).1
  have hkd := ((hdok.known.parent hdok.parent₃).1.parent hdok.parent₂).1
  rcases Nat.eq_zero_or_pos c.header.view with h0 | hcpos
  · exact .inr (hkc.eq_genesis_of_view h0 ▸ hkd.extends_genesis)
  rcases Nat.eq_zero_or_pos d.header.view with h0 | hdpos
  · exact .inl (hkd.eq_genesis_of_view h0 ▸ hkc.extends_genesis)
  have hrules := rules_chain hlog hz
  rcases ChainSafety.comparable_of_committed hrules (committed_of_commitOk hsplit hcok hcpos)
    (committed_of_commitOk hsplit' hdok hdpos) with h | h
  · exact .inl (extends_of_chain h)
  · exact .inr (extends_of_chain h)

end rules

end Agreement

section
variable {P : Primitives} (U : HeaderPool P)

/-- Any two committed blocks lie on one chain. -/
def CommitsAgree (log : NetLog) : Prop :=
  ∀ i j b b', (i, .commit b) ∈ log → (j, .commit b') ∈ log →
    U.Extends b.header b'.header ∨ U.Extends b'.header b.header

variable (vs : ValidatorSet) (byz : Finset ValidatorId) (limits : ValidatorId → CacheLimits)

/-- The environment delivers justified proposals and backed certificates. -/
def AdmissibleRun (deliveries : List Delivery) : Prop :=
  Along (Net.deliver P) (fun net d => Admissible U vs byz net.log d.event)
    (Net.start P vs U.genesis limits) deliveries

/-- While every lock is ranked by view and no pending block is evicted, commits agree. -/
theorem commitsAgree_of_locksByView
    (hbyz : 3 * Quorum.weight vs.weightAt (vs.indicesOf byz) < vs.totalWeight)
    (deliveries : List Delivery) (hadm : AdmissibleRun U vs byz limits deliveries)
    (hlock : Along (Net.deliver P) (LocksByView P) (Net.start P vs U.genesis limits) deliveries) :
    CommitsAgree U (run (Net.deliver P) (Net.start P vs U.genesis limits) deliveries).log := by
  have hok : Agreement.NetOk U vs byz
      (run (Net.deliver P) (Net.start P vs U.genesis limits) deliveries) :=
    (Along.and hadm hlock).invariant (fun net d hq hnet => hnet.deliver hq.1 hq.2)
      (Agreement.netOk_start limits)
  intro i j b b' hb hb'
  exact Agreement.comparable_of_commits hok.log hbyz (List.mem_filter.mpr ⟨hb, rfl⟩)
    (List.mem_filter.mpr ⟨hb', rfl⟩)

end

namespace Sample

def deliverTo (node : ValidatorId) (p : Proposal) : Delivery := ⟨node, order, received p⟩

def unbounded : ValidatorId → CacheLimits := fun _ => .unboundedForTests

/-- One chain through consecutive views at two replicas. -/
def straight : List Delivery :=
  [d₁, d₂, d₃, d₄].flatMap fun p => [deliverTo 1 p, deliverTo 2 p]

theorem commitsAgree_straight :
    (1, Action.commit d₁.block) ∈
      (run (Net.deliver primitives) (Net.start primitives validators straightPool.genesis unbounded)
        straight).log ∧
    CommitsAgree straightPool
      (run (Net.deliver primitives) (Net.start primitives validators straightPool.genesis unbounded)
        straight).log :=
  ⟨by decide +kernel,
    commitsAgree_of_locksByView straightPool validators {4} unbounded (by decide +kernel) straight
      (show Along _ _ _ _ by decide +kernel) (by decide +kernel)⟩

def a₁ : Proposal := propose genesis 1 []
def a₂ : Proposal := propose a₁.block 3 [0, 1, 3]
def a₃ : Proposal := propose a₂.block 5 [0, 1, 3]
def a₄ : Proposal := propose a₃.block 7 [0, 1, 3]
def b₁ : Proposal := propose a₁.block 10 [0, 1, 3]
def b₂ : Proposal := propose b₁.block 11 [1, 2, 3]
def b₃ : Proposal := propose b₂.block 12 [0, 1, 3]
def b₄ : Proposal := propose b₃.block 13 [0, 1, 3]
def c₁ : Proposal := propose a₃.block 20 [0, 1, 3]
def c₂ : Proposal := propose c₁.block 21 [0, 2, 3]
def c₃ : Proposal := propose c₂.block 22 [0, 2, 3]
def c₄ : Proposal := propose c₃.block 23 [0, 2, 3]

def forkPool : HeaderPool primitives where
  headers := genesis.header ::
    [a₁, a₂, a₃, a₄, b₁, b₂, b₃, b₄, c₁, c₂, c₃, c₄].map fun p => p.block.header
  stateCommitment := 0
  historyCommitment := 0
  genesis_mem := List.mem_cons_self ..
  hash_injective := by decide +kernel
  hash_ne_zero := by decide +kernel

/-- Replica 1 locks `a₂` (height 2, view 3). The fork over `a₁` reaches height 2 in view 10; the
height does not exceed that of the lock, so replica 1 helps to commit `b₁` and keeps its lock. -/
def fork : List Delivery :=
  [deliverTo 1 a₁, deliverTo 2 a₁, deliverTo 3 a₁, deliverTo 1 a₂, deliverTo 2 a₂,
    deliverTo 1 a₃, deliverTo 2 a₃, deliverTo 1 a₄,
    deliverTo 2 b₁, deliverTo 3 b₁, deliverTo 1 b₁, deliverTo 1 b₂, deliverTo 2 b₂,
    deliverTo 1 b₃, deliverTo 2 b₃, deliverTo 2 b₄,
    deliverTo 3 a₂, deliverTo 3 a₃, deliverTo 1 c₁, deliverTo 3 c₁, deliverTo 1 c₂,
    deliverTo 3 c₂, deliverTo 1 c₃, deliverTo 3 c₃, deliverTo 1 c₄]

/-- Headers closed under parents hold every ancestor of their members. -/
theorem mem_of_extends {P : Primitives} {U : HeaderPool P} {l : List BlockHeader}
    (hl : ∀ x ∈ l, ∀ y ∈ U.headers, x.parentHash = P.headerHash y → y ∈ l) {x y : BlockHeader}
    (hx : x ∈ l) (h : U.Extends x y) : y ∈ l := by
  induction h with
  | refl => exact hx
  | tail _ hp ih => exact hl _ ih _ hp.parent_mem hp.hash_eq

/-- Less than a third of the weight is Byzantine and every delivery is admissible, and yet two
replicas commit conflicting blocks. -/
theorem not_commitsAgree_fork :
    3 * Quorum.weight validators.weightAt (validators.indicesOf {4}) < validators.totalWeight ∧
    AdmissibleRun forkPool validators {4} unbounded fork ∧
    ¬ CommitsAgree forkPool
      (run (Net.deliver primitives) (Net.start primitives validators forkPool.genesis unbounded)
        fork).log := by
  refine ⟨by decide +kernel, show Along _ _ _ _ by decide +kernel, fun h => ?_⟩
  have hcb := h 1 2 c₁.block b₁.block (by decide +kernel) (by decide +kernel)
  rcases hcb with hext | hext
  · have hm : b₁.block.header ∈ [c₁.block.header, a₃.block.header, a₂.block.header,
        a₁.block.header, genesis.header] :=
      mem_of_extends (by decide +kernel) (List.mem_cons_self ..) hext
    exact absurd hm (by decide +kernel)
  · have hm : c₁.block.header ∈ [b₁.block.header, a₁.block.header, genesis.header] :=
      mem_of_extends (by decide +kernel) (List.mem_cons_self ..) hext
    exact absurd hm (by decide +kernel)

end Sample

end Boule
