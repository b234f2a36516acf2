import Boule.HotStuff.Ancestry
import Boule.HotStuff.Evictions
import Boule.HotStuff.LockOrder
import Boule.Lib.Run

/-! Runs with the blocks that evictions have taken kept aside. Whether a vote depends on an
evicted block. -/
namespace Boule

open HotStuffState

/-- The pending blocks as they would be if the core had evicted none: accepted proposals are
inserted, commits prune. -/
def AcceptCall.unevicted (P : Primitives) (all : Table BlockHash Block) (call : AcceptCall) :
    Table BlockHash Block :=
  let all : Table BlockHash Block := all.insert (call.2.block.hash P) call.2.block
  match call.1.commits P call.2 with
  | none => all
  | some committed => all.retain fun _ b => committed.header.height < b.header.height

theorem AcceptCall.get?_unevicted (P : Primitives) (all : Table BlockHash Block)
    (call : AcceptCall) (h : BlockHash) (b : Block) :
    (call.unevicted P all).get? h = some b ↔
      Table.get? (all.insert (call.2.block.hash P) call.2.block) h = some b ∧
        ∀ c, call.1.commits P call.2 = some c → c.header.height < b.header.height := by
  unfold unevicted
  cases call.1.commits P call.2 with
  | none => simp
  | some c =>
    simp only [Option.some.injEq, forall_eq']
    rw [Table.get?_retain_eq_some, decide_eq_true_iff]

/-- The proposal is voted for exactly if it would be with the evicted blocks still there. -/
def AcceptCall.VotesAlike (P : Primitives) (all : Table BlockHash Block) (call : AcceptCall) :
    Prop :=
  call.1.votesFor P call.2 = safeToVote P call.2 { call.1.insertPending P call.2.block with
    pendingBlocks := all.insert (call.2.block.hash P) call.2.block }

instance (P : Primitives) (all : Table BlockHash Block) :
    DecidablePred (AcceptCall.VotesAlike P all) := fun _ => inferInstanceAs (Decidable (_ = _))

/-- Among these blocks, `f` rises from every block to its children. -/
def RisesToChildren (P : Primitives) (f : BlockHeader → ℕ) (blocks : List Block) : Prop :=
  ∀ b ∈ blocks, ∀ b' ∈ blocks, b'.header.parentHash = b.hash P → f b.header < f b'.header

instance (P : Primitives) (f : BlockHeader → ℕ) : DecidablePred (RisesToChildren P f) :=
  fun blocks => inferInstanceAs (Decidable (∀ b ∈ blocks, _))

/-- `all` has the pending blocks and perhaps others, and the lock is on a block. -/
structure Shadows (P : Primitives) (blocks : List Block) (s : HotStuffState)
    (all : Table BlockHash Block) : Prop where
  own : ∀ h b, all.get? h = some b → b.hash P = h ∧ b ∈ blocks
  pending : s.pendingBlocks.Within all
  locked : ∀ l ∈ s.locked, ∃ b ∈ blocks, l = ⟨b.header.view, b.header.height, b.hash P⟩

/-- The blocks of `all` that are not pending are not above the lock. -/
def EvictedBelow (s : HotStuffState) (all : Table BlockHash Block) : Prop :=
  ∀ h b, all.get? h = some b → s.getPending h = some b ∨ b.header.height ≤ s.lockedHeight

namespace Shadows
variable {P : Primitives} {blocks : List Block} {s s' : HotStuffState}
  {all : Table BlockHash Block} {b : Block}

theorem of_pendingBlocks (h : Shadows P blocks s all) (hp : s'.pendingBlocks = s.pendingBlocks)
    (hl : ∀ l ∈ s'.locked, ∃ b ∈ blocks, l = ⟨b.header.view, b.header.height, b.hash P⟩) :
    Shadows P blocks s' all where
  own := h.own
  pending := hp ▸ h.pending
  locked := hl

theorem insert (h : Shadows P blocks s all) (hb : b ∈ blocks) :
    Shadows P blocks (s.insertPending P b) (all.insert (b.hash P) b) where
  own := by
    intro x y hy
    rw [Table.get?_insert] at hy
    split_ifs at hy with he
    · obtain rfl := Option.some.inj hy
      exact ⟨he.symm, hb⟩
    · exact h.own x y hy
  pending := by
    intro x y hy
    rw [Table.get?_insert]
    split_ifs with he
    · subst he
      rw [← hy]
      exact (getPending_insertPending_self P s b).symm
    · rcases getPending_of_insertPending hy with ⟨heq, -⟩ | hbefore
      · exact absurd heq he
      · exact h.pending x y hbefore
  locked := by
    rw [insertPending_locked]
    exact h.locked

/-- Whatever an ancestor of a block is, `f` is less there. -/
theorem lt_of_isAncestor (h : Shadows P blocks s all) {f : BlockHeader → ℕ}
    (hrise : RisesToChildren P f blocks) {anc : Block} (hanc : anc ∈ blocks) {hash : BlockHash}
    (ha : IsAncestor all hash (anc.hash P)) :
    ∃ b, all.get? hash = some b ∧ f anc.header < f b.header := by
  obtain ⟨last, hpath, bLast, hbLast, hparentLast⟩ := ha
  induction hpath using Relation.ReflTransGen.head_induction_on with
  | refl => exact ⟨bLast, hbLast, hrise anc hanc bLast (h.own _ _ hbLast).2 hparentLast⟩
  | head hstep _ ih =>
    obtain ⟨b', hb', hlt'⟩ := ih
    obtain ⟨⟨b, hb, hparent⟩, -⟩ := hstep
    have hown := h.own _ b' hb'
    have hlt : f b'.header < f b.header :=
      hrise b' hown.2 b (h.own _ b hb).2 (hparent.trans hown.1.symm)
    exact ⟨b, hb, by omega⟩

/-- A way to the lock over blocks of `all` leads over pending blocks: all of them are above the
lock. -/
theorem isAncestor_of_unevicted (h : Shadows P blocks s all) (hevicted : EvictedBelow s all)
    (hrise : RisesToChildren P BlockHeader.height blocks) {l : Locked} (hl : s.locked = some l)
    {hash : BlockHash} (ha : IsAncestor all hash l.blockHash) :
    IsAncestor s.pendingBlocks hash l.blockHash := by
  obtain ⟨locked, hlocked, rfl⟩ := h.locked l hl
  have hheight : s.lockedHeight = locked.header.height := by
    rw [lockedHeight, hl]
    rfl
  have hkept : ∀ x y, ParentIn all x y → IsAncestor all x (locked.hash P) →
      ParentIn s.pendingBlocks x y := by
    rintro x y ⟨b, hb, hparent⟩ hancestor
    obtain ⟨b', hb', hlt⟩ := h.lt_of_isAncestor hrise hlocked hancestor
    obtain rfl : b' = b := Option.some.inj (hb'.symm.trans hb)
    refine ⟨b', (hevicted x b' hb').resolve_right ?_, hparent⟩
    omega
  obtain ⟨last, hpath, hlast⟩ := ha
  have hway : Relation.ReflTransGen (FollowsParent s.pendingBlocks) hash last := by
    induction hpath using Relation.ReflTransGen.head_induction_on with
    | refl => exact .refl
    | head hstep hrest ih =>
      have hancestor : IsAncestor all _ (locked.hash P) := ⟨last, .head hstep hrest, hlast⟩
      exact .head ⟨hkept _ _ hstep.1 hancestor, hstep.2⟩ ih
  exact ⟨last, hway, hkept last _ hlast ⟨last, .refl, hlast⟩⟩

/-- Evictions can only turn a vote down, and only by hiding that the proposal extends the
lock. -/
theorem safeToVote_eq (h : Shadows P blocks s all) {p : Proposal}
    (hway : ∀ l ∈ s.locked, p.block.hash P ≠ l.blockHash →
      IsAncestor all (p.block.hash P) l.blockHash →
        IsAncestor s.pendingBlocks (p.block.hash P) l.blockHash ∨ l.view < p.justify.view) :
    safeToVote P p s = safeToVote P p { s with pendingBlocks := all } := by
  unfold safeToVote
  cases hl : s.locked with
  | none => rfl
  | some l =>
    by_cases hlater : l.view < p.justify.view
    · simp [hlater]
    have hextends : extendsAncestor (p.block.hash P) l.blockHash s.pendingBlocks =
        extendsAncestor (p.block.hash P) l.blockHash all := by
      unfold extendsAncestor
      split_ifs with hsame
      · rfl
      · rw [Bool.eq_iff_iff, extendsLoop_iff, extendsLoop_iff]
        refine ⟨.mono h.pending, fun ha => ?_⟩
        exact (hway l hl hsame ha).resolve_right hlater
    simp only [hextends]

/-- The lock moves to a pending block. -/
theorem next {call : AcceptCall} (h : Shadows P blocks call.1 all) (hb : call.2.block ∈ blocks) :
    Shadows P blocks (call.next P) (call.unevicted P all) where
  own := by
    intro x y hy
    exact (h.insert hb).own x y ((call.get?_unevicted P all x y).mp hy).1
  pending := by
    intro x y hy
    obtain ⟨hbefore, hprune⟩ := (acceptProposal_getPending P call.1 call.2 x y).mp hy
    exact (call.get?_unevicted P all x y).mpr ⟨(h.insert hb).pending x y hbefore, hprune⟩
  locked := by
    intro l hl
    rw [call.next_locked P] at hl
    rcases Option.or_eq_some_iff.mp hl with hnew | ⟨-, hsame⟩
    · obtain ⟨y, z, -, hz, rfl⟩ :=
        (lockCandidate_eq_some_iff P call.1 call.2 l).mp ((call.newLock_eq_some_iff P l).mp hnew).1
      obtain ⟨hhash, hblock⟩ := (h.insert hb).own _ z ((h.insert hb).pending _ z hz)
      exact ⟨z, hblock, by rw [hhash]⟩
    · exact h.locked l hsame

end Shadows

/-- The proposal's certificate is not of an earlier view than its parent. -/
def CertifiesParent (P : Primitives) (blocks : List Block) (p : Proposal) : Prop :=
  ∀ b ∈ blocks, b.hash P = p.block.header.parentHash → b.header.view ≤ p.justify.view

instance (P : Primitives) (blocks : List Block) : DecidablePred (CertifiesParent P blocks) :=
  fun _ => inferInstanceAs (Decidable (∀ b ∈ blocks, _))

section
variable {P : Primitives} {blocks : List Block} {s : HotStuffState}
  {all : Table BlockHash Block} {call : AcceptCall} {b : Block}

theorem EvictedBelow.mono {s' : HotStuffState} (h : EvictedBelow s all)
    (hp : s'.pendingBlocks = s.pendingBlocks) (hle : s.lockedHeight ≤ s'.lockedHeight) :
    EvictedBelow s' all := by
  intro x y hy
  unfold getPending
  rw [hp]
  exact (h x y hy).imp_right fun hlow => hlow.trans hle

theorem EvictedBelow.insert (h : EvictedBelow s all) (hbelow : Insertion.SparesAbove P (s, b)) :
    EvictedBelow (s.insertPending P b) (all.insert (b.hash P) b) := by
  have hheight : (s.insertPending P b).lockedHeight = s.lockedHeight := by
    rw [lockedHeight, insertPending_locked, lockedHeight]
  intro x y hy
  rw [hheight]
  rw [Table.get?_insert] at hy
  split_ifs at hy with he
  · subst he
    rw [← hy]
    exact .inl (getPending_insertPending_self P s b)
  · rcases h x y hy with hpending | hlow
    · by_cases hkeep : s.HasRoomFor P b ∨ ¬ s.LowestUnprotected x y
      · exact .inl (getPending_insertPending_of_kept hpending he hkeep)
      · obtain ⟨hroom, hlowest⟩ := not_or.mp hkeep
        exact .inr (hbelow hroom x y (not_not.mp hlowest))
    · exact .inr hlow

theorem EvictedBelow.next (h : EvictedBelow call.1 all)
    (hbelow : Insertion.SparesAbove P (call.1, call.2.block)) :
    EvictedBelow (call.next P) (call.unevicted P all) := by
  intro x y hy
  obtain ⟨hbefore, hprune⟩ := (call.get?_unevicted P all x y).mp hy
  rcases h.insert hbelow x y hbefore with hpending | hlow
  · exact .inl ((acceptProposal_getPending P call.1 call.2 x y).mpr ⟨hpending, hprune⟩)
  · have hheight : (call.1.insertPending P call.2.block).lockedHeight = call.1.lockedHeight := by
      rw [lockedHeight, insertPending_locked, lockedHeight]
    exact .inr ((hheight ▸ hlow).trans (lockedHeight_le_next P call))

/-- If only blocks below the lock are gone, no way to the lock is cut. -/
theorem votesAlike_of_evictedBelow (h : Shadows P blocks call.1 all) (hb : call.2.block ∈ blocks)
    (hrise : RisesToChildren P BlockHeader.height blocks) (hevicted : EvictedBelow call.1 all)
    (hbelow : Insertion.SparesAbove P (call.1, call.2.block)) : call.VotesAlike P all := by
  refine (h.insert hb).safeToVote_eq fun l hl _ ha => .inl ?_
  exact (h.insert hb).isAncestor_of_unevicted (hevicted.insert hbelow) hrise hl ha

/-- A certificate for a parent above the lock is later than the lock. -/
theorem votesAlike_of_certifiesParent (h : Shadows P blocks call.1 all) (hb : call.2.block ∈ blocks)
    (hrise : RisesToChildren P BlockHeader.view blocks) (hcert : CertifiesParent P blocks call.2) :
    call.VotesAlike P all := by
  have hins := h.insert hb
  have hblock : Table.get? (all.insert (call.2.block.hash P) call.2.block) (call.2.block.hash P) =
      some call.2.block := Table.get?_insert_self _ _ _
  refine hins.safeToVote_eq fun l hl _ ha => ?_
  obtain ⟨locked, hlocked, rfl⟩ := hins.locked l hl
  obtain ⟨last, hpath, hlast⟩ := ha
  rcases Relation.ReflTransGen.cases_head hpath with rfl | ⟨parent, ⟨hparent, -⟩, hrest⟩
  · obtain ⟨b, hb', hparent⟩ := hlast
    obtain rfl : call.2.block = b := Option.some.inj (hblock.symm.trans hb')
    exact .inl ⟨_, .refl, call.2.block, getPending_insertPending_self P call.1 _, hparent⟩
  · obtain ⟨b, hb', rfl⟩ := hparent
    obtain rfl : call.2.block = b := Option.some.inj (hblock.symm.trans hb')
    obtain ⟨b, hb, hlt⟩ := hins.lt_of_isAncestor hrise hlocked ⟨last, hrest, hlast⟩
    obtain ⟨hhash, hin⟩ := hins.own _ b hb
    exact .inr (hlt.trans_le (hcert b hin hhash))

end

/-! ### Runs -/

/-- What changes a core: the events and its other entry points. -/
inductive CoreInput where
  | event (order : IterOrder) (event : Event)
  | insertPendingBlock (block : Block)
  | adoptSnapshot (block : Block) (commitQc : QuorumCertificate) (view : ℕ)
  | setHighQc (qc : QuorumCertificate)
  | insertValidatorBoundary (vEff : ℕ) (set : ValidatorSet)
  | blockSyncRetryTick
  | proposalBuilt (view : ℕ) (block : Block) (highQc : QuorumCertificate)

/-- The block that is inserted without being proposed. -/
def CoreInput.block? : CoreInput → Option Block
  | .insertPendingBlock block => some block
  | .adoptSnapshot block _ _ => some block
  | _ => none

/-- The block and the view of an adopted snapshot. -/
def CoreInput.snapshot? : CoreInput → Option (Block × ℕ)
  | .adoptSnapshot block _ view => some (block, view)
  | _ => none

theorem CoreInput.eq_of_block {input : CoreInput} {block : Block}
    (hsome : input.block? = some block) : input = .insertPendingBlock block ∨
      ∃ commitQc view, input = .adoptSnapshot block commitQc view := by
  cases input with
  | insertPendingBlock b =>
    obtain rfl := Option.some.inj hsome
    exact .inl rfl
  | adoptSnapshot b commitQc view =>
    obtain rfl := Option.some.inj hsome
    exact .inr ⟨commitQc, view, rfl⟩
  | event order event => cases hsome
  | setHighQc qc => cases hsome
  | insertValidatorBoundary vEff set => cases hsome
  | blockSyncRetryTick => cases hsome
  | proposalBuilt view block highQc => cases hsome

namespace HotStuffCore

def apply (P : Primitives) (c : HotStuffCore) : CoreInput → HotStuffCore
  | .event order event => c.next P (order, event)
  | .insertPendingBlock block => c.insertPendingBlock P block
  | .adoptSnapshot block commitQc view => (c.adoptSnapshot P block commitQc view).1
  | .setHighQc qc => c.setHighQc qc
  | .insertValidatorBoundary vEff set =>
    match c.insertValidatorBoundary vEff set with
    | .ok c => c
    | .error _ => c
  | .blockSyncRetryTick => c.stepBlockSyncRetryTick.1
  | .proposalBuilt view block highQc => (c.proposalBuilt view block highQc).1

def acceptCalls (P : Primitives) (c : HotStuffCore) : CoreInput → List AcceptCall
  | .event order event => c.stepCalls P order event
  | _ => []

/-- The insertions into the pending blocks, in order. -/
def insertions (P : Primitives) (c : HotStuffCore) (input : CoreInput) : List Insertion :=
  match input.block? with
  | some block => [(c.state, block)]
  | none => (c.acceptCalls P input).map fun call => (call.1, call.2.block)

end HotStuffCore

/-! ### The locked block -/

/-- The proposal commits a block that is not below the pending block `h`. -/
def AcceptCall.Prunes (P : Primitives) (call : AcceptCall) (h : BlockHash) : Prop :=
  ∃ b ∈ (call.1.insertPending P call.2.block).getPending h,
    ∃ c ∈ call.1.commits P call.2, b.header.height ≤ c.header.height

section
variable {P : Primitives} {s s' : HotStuffState} {calls : List AcceptCall} {l : Locked}

theorem AcceptCall.containsKey_next {call : AcceptCall} {h : BlockHash}
    (hh : (call.1.insertPending P call.2.block).pendingBlocks.containsKey h = true) :
    (call.next P).pendingBlocks.containsKey h = true ∨ call.Prunes P h := by
  obtain ⟨b, hb⟩ := (Table.containsKey_iff _ _).mp hh
  by_cases hprune : ∀ c, call.1.commits P call.2 = some c → c.header.height < b.header.height
  · left
    rw [Table.containsKey_iff]
    exact ⟨b, (acceptProposal_getPending P call.1 call.2 h b).mpr ⟨hb, hprune⟩⟩
  · simp only [not_forall, not_lt] at hprune
    obtain ⟨c, hc, hle⟩ := hprune
    exact .inr ⟨b, hb, c, hc, hle⟩

theorem Linked.lockedHeight_le (h : Linked P s calls s') : s.lockedHeight ≤ s'.lockedHeight := by
  induction calls generalizing s with
  | nil =>
    have hsame : s'.locked = s.locked := SameSafety.locked h
    rw [lockedHeight, lockedHeight, hsame]
  | cons call calls ih =>
    obtain ⟨hsame, -, hrest⟩ := h
    have hcall : s.lockedHeight = call.1.lockedHeight := by
      rw [lockedHeight, lockedHeight, hsame.locked]
    have hnext := lockedHeight_le_next P call
    have hrest := ih hrest
    omega

/-- A lock that is the same after the calls was the same all along: its height only rises. -/
theorem Linked.lock_stays (h : Linked P s calls s')
    (hkeep : ∀ call ∈ calls, Insertion.KeepsWell P (call.1, call.2.block))
    (hl : s.locked = some l) (hl' : s'.locked = some l)
    (hpresent : s.pendingBlocks.containsKey l.blockHash = true) :
    s'.pendingBlocks.containsKey l.blockHash = true ∨
      ∃ call ∈ calls, call.Prunes P l.blockHash := by
  induction calls generalizing s with
  | nil =>
    have hsame : s'.pendingBlocks = s.pendingBlocks := SameSafety.pendingBlocks h
    exact .inl (hsame ▸ hpresent)
  | cons call calls ih =>
    obtain ⟨hsame, -, hrest⟩ := h
    have hlocked : call.1.locked = some l := hsame.locked.trans hl
    have hinserted := (hkeep call (List.mem_cons_self ..)).locked l hlocked
      (hsame.pendingBlocks ▸ hpresent)
    rcases AcceptCall.containsKey_next hinserted with hkept | hprune
    · have hnext : (call.next P).locked = some l := by
        have hlocks := call.next_locked P
        cases hnew : call.newLock P with
        | none => simpa [hnew, hlocked] using hlocks
        | some l' =>
          obtain ⟨-, hlt⟩ := (call.newLock_eq_some_iff P l').mp hnew
          have hle := hrest.lockedHeight_le
          simp only [lockedHeight, hlocks, hnew, hl', hlocked, Option.some_or, Option.map_some,
            Option.getD_some] at hlt hle
          omega
      refine (ih hrest (fun c hc => hkeep c (List.mem_cons_of_mem _ hc)) hnext hkept).imp_right ?_
      rintro ⟨c, hc, hprune⟩
      exact ⟨c, List.mem_cons_of_mem _ hc, hprune⟩
    · exact .inr ⟨call, List.mem_cons_self .., hprune⟩

end

namespace HotStuffCore

/-- A locked block that is pending, and still is the lock after the step, is pending then or was
pruned by a commit of the step that is not below it. -/
def LockStays (P : Primitives) (c : HotStuffCore) (input : CoreInput) : Prop :=
  ∀ l ∈ c.state.locked, c.state.pendingBlocks.containsKey l.blockHash = true →
    (c.apply P input).state.locked = some l →
      (c.apply P input).state.pendingBlocks.containsKey l.blockHash = true ∨
        ∃ call ∈ c.acceptCalls P input, call.Prunes P l.blockHash

/-- What the evictions of the step must not touch stays, and so does the locked block. -/
structure KeepsWell (P : Primitives) (c : HotStuffCore) (input : CoreInput) : Prop where
  insertions : ∀ i ∈ c.insertions P input, i.KeepsWell P
  lock : c.LockStays P input

/-- No insertion of the step is to throw the locked block out. -/
def SparesLock (P : Primitives) (c : HotStuffCore) (input : CoreInput) : Prop :=
  ∀ i ∈ c.insertions P input, i.SparesLock P

variable {P : Primitives} {c : HotStuffCore} {input : CoreInput}

theorem linked_apply (hnone : input.block? = none) :
    Linked P c.state (c.acceptCalls P input) (c.apply P input).state := by
  cases input with
  | event order event => exact (handles_step P order c event).linked
  | insertPendingBlock block => cases hnone
  | adoptSnapshot block commitQc view => cases hnone
  | setHighQc qc => exact sameSafety_setHighQc c qc
  | insertValidatorBoundary vEff set =>
    simp only [apply]
    cases hok : c.insertValidatorBoundary vEff set with
    | ok c' => exact sameSafety_insertValidatorBoundary hok
    | error _ => exact SameSafety.refl _
  | blockSyncRetryTick => exact .of_eq (quiet_stepBlockSyncRetryTick c).1.state
  | proposalBuilt view block highQc => exact SameSafety.refl _

theorem pendingBlocks_apply {block : Block} (hsome : input.block? = some block) :
    (c.apply P input).state.pendingBlocks = (c.state.insertPending P block).pendingBlocks := by
  rcases CoreInput.eq_of_block hsome with rfl | ⟨commitQc, view, rfl⟩ <;> rfl

theorem lockStays_of_keepsWell (hkeep : ∀ i ∈ c.insertions P input, i.KeepsWell P) :
    c.LockStays P input := by
  intro l hl hpresent hl'
  unfold insertions at hkeep
  cases hblock : input.block? with
  | some block =>
    simp only [hblock, List.forall_mem_singleton] at hkeep
    left
    rw [pendingBlocks_apply hblock]
    exact hkeep.locked l hl hpresent
  | none =>
    simp only [hblock, List.forall_mem_map] at hkeep
    exact (linked_apply hblock).lock_stays hkeep hl hl' hpresent

theorem keepsWell_iff : c.KeepsWell P input ↔ c.SparesLock P input := by
  have hinsertions : (∀ i ∈ c.insertions P input, i.KeepsWell P) ↔ c.SparesLock P input :=
    forall₂_congr fun _ _ => Insertion.keepsWell_iff
  constructor
  · intro h
    exact hinsertions.mp h.insertions
  · intro h
    have hkeep := hinsertions.mpr h
    exact ⟨hkeep, lockStays_of_keepsWell hkeep⟩

/-! ### The votes -/

/-- The pending blocks are among these, each under its hash, and so is the locked block. -/
def StartsIn (P : Primitives) (blocks : List Block) (c : HotStuffCore) : Prop :=
  (∀ e ∈ c.state.pendingBlocks.toList, e.2.hash P = e.1 ∧ e.2 ∈ blocks) ∧
    ∀ l ∈ c.state.locked, ∃ b ∈ blocks, l = ⟨b.header.view, b.header.height, b.hash P⟩

/-- The blocks that the step inserts are among these, and a snapshot's view is its block's. -/
def StaysIn (P : Primitives) (blocks : List Block) (c : HotStuffCore) (input : CoreInput) :
    Prop :=
  (∀ i ∈ c.insertions P input, i.2 ∈ blocks) ∧
    ∀ snapshot ∈ input.snapshot?, snapshot.2 = snapshot.1.header.view

/-- The proposals that the step accepts are certified for their parents. -/
def Certifies (P : Primitives) (blocks : List Block) (c : HotStuffCore) (input : CoreInput) :
    Prop :=
  ∀ call ∈ c.acceptCalls P input, CertifiesParent P blocks call.2

/-- No insertion of the step is to throw a block above the lock out, and no snapshot is adopted
below the lock. -/
def SparesAbove (P : Primitives) (c : HotStuffCore) (input : CoreInput) : Prop :=
  (∀ i ∈ c.insertions P input, i.SparesAbove P) ∧
    ∀ snapshot ∈ input.snapshot?, c.state.lockedHeight ≤ snapshot.1.header.height

instance : DecidablePred (c.SparesLock P) := fun input =>
  inferInstanceAs (Decidable (∀ i ∈ c.insertions P input, _))

instance (blocks : List Block) : DecidablePred (StartsIn P blocks) := fun c =>
  inferInstanceAs (Decidable ((∀ e ∈ c.state.pendingBlocks.toList, _) ∧ ∀ l ∈ c.state.locked, _))

instance (blocks : List Block) : DecidablePred (c.StaysIn P blocks) := fun input =>
  inferInstanceAs (Decidable ((∀ i ∈ c.insertions P input, _) ∧ ∀ s ∈ input.snapshot?, _))

instance (blocks : List Block) : DecidablePred (c.Certifies P blocks) := fun input =>
  inferInstanceAs (Decidable (∀ call ∈ c.acceptCalls P input, _))

variable {blocks : List Block} {all : Table BlockHash Block} {block : Block}

theorem insertions_of_block (hsome : input.block? = some block) :
    c.insertions P input = [(c.state, block)] := by
  unfold insertions
  rw [hsome]

theorem acceptCalls_of_block (hsome : input.block? = some block) : c.acceptCalls P input = [] := by
  rcases CoreInput.eq_of_block hsome with rfl | ⟨commitQc, view, rfl⟩ <;> rfl

theorem insertions_of_calls (hnone : input.block? = none) :
    c.insertions P input = (c.acceptCalls P input).map fun call => (call.1, call.2.block) := by
  unfold insertions
  rw [hnone]

theorem shadows_apply_block (hsome : input.block? = some block)
    (hin : c.StaysIn P blocks input) (h : Shadows P blocks c.state all) :
    Shadows P blocks (c.apply P input).state (all.insert (block.hash P) block) := by
  obtain ⟨hblocks, hsnapshot⟩ := hin
  rw [insertions_of_block hsome, List.forall_mem_singleton] at hblocks
  refine (h.insert hblocks).of_pendingBlocks (pendingBlocks_apply hsome) ?_
  rcases CoreInput.eq_of_block hsome with rfl | ⟨commitQc, view, rfl⟩
  · have hlocked : (c.apply P (.insertPendingBlock block)).state.locked = c.state.locked :=
      insertPending_locked P c.state block
    exact hlocked ▸ h.locked
  · have hview : view = block.header.view := hsnapshot (block, view) rfl
    intro l hl
    obtain rfl := Option.some.inj hl
    exact ⟨block, hblocks, by rw [hview]⟩

theorem evictedBelow_apply_block (hsome : input.block? = some block)
    (habove : c.SparesAbove P input) (h : EvictedBelow c.state all) :
    EvictedBelow (c.apply P input).state (all.insert (block.hash P) block) := by
  obtain ⟨hinsertions, hsnapshot⟩ := habove
  rw [insertions_of_block hsome, List.forall_mem_singleton] at hinsertions
  refine (h.insert hinsertions).mono (pendingBlocks_apply hsome) ?_
  have hsame : (c.state.insertPending P block).lockedHeight = c.state.lockedHeight := by
    rw [lockedHeight, insertPending_locked, lockedHeight]
  rw [hsame]
  rcases CoreInput.eq_of_block hsome with rfl | ⟨commitQc, view, rfl⟩
  · exact hsame.ge
  · exact hsnapshot (block, view) rfl

end HotStuffCore

/-- What every accepted proposal preserves holds after all of them. -/
theorem Linked.along_unevicted {P : Primitives} {J : HotStuffState → Table BlockHash Block → Prop}
    {s s' : HotStuffState} {calls : List AcceptCall} {all : Table BlockHash Block}
    (h : Linked P s calls s') (hsame : ∀ {s s' all}, SameSafety s s' → J s all → J s' all)
    (hcall : ∀ call ∈ calls, ∀ all, J call.1 all →
      J (call.next P) (call.unevicted P all) ∧ call.VotesAlike P all) (hJ : J s all) :
    J s' (run (AcceptCall.unevicted P) all calls) ∧
      Along (AcceptCall.unevicted P) (AcceptCall.VotesAlike P) all calls := by
  induction calls generalizing s all with
  | nil => exact ⟨hsame h hJ, trivial⟩
  | cons call calls ih =>
    obtain ⟨hfirst, -, hrest⟩ := h
    obtain ⟨hnext, halike⟩ := hcall call (List.mem_cons_self ..) all (hsame hfirst hJ)
    obtain ⟨hlast, halong⟩ :=
      ih hrest (fun c hc => hcall c (List.mem_cons_of_mem _ hc)) hnext
    exact ⟨hlast, halike, halong⟩

/-- A replica with its pending blocks as they would be if it had evicted none. -/
structure Archived where
  core : HotStuffCore
  unevicted : Table BlockHash Block

namespace Archived

def start (c : HotStuffCore) : Archived := ⟨c, c.state.pendingBlocks⟩

def next (P : Primitives) (a : Archived) (input : CoreInput) : Archived where
  core := a.core.apply P input
  unevicted :=
    match input.block? with
    | some block => a.unevicted.insert (block.hash P) block
    | none => run (AcceptCall.unevicted P) a.unevicted (a.core.acceptCalls P input)

/-- Every proposal of the step is voted for exactly if it would be with the evicted blocks still
there. -/
def VotesAlike (P : Primitives) (a : Archived) (input : CoreInput) : Prop :=
  Along (AcceptCall.unevicted P) (AcceptCall.VotesAlike P) a.unevicted
    (a.core.acceptCalls P input)

variable {P : Primitives} {blocks : List Block} {a : Archived} {input : CoreInput}

theorem next_of_certifies (hrise : RisesToChildren P BlockHeader.view blocks)
    (hin : a.core.StaysIn P blocks input) (hcert : a.core.Certifies P blocks input)
    (h : Shadows P blocks a.core.state a.unevicted) :
    Shadows P blocks (a.next P input).core.state (a.next P input).unevicted ∧
      a.VotesAlike P input := by
  unfold next VotesAlike
  cases hblock : input.block? with
  | some block =>
    have hcalls : a.core.acceptCalls P input = [] := HotStuffCore.acceptCalls_of_block hblock
    rw [hcalls]
    exact ⟨HotStuffCore.shadows_apply_block hblock hin h, trivial⟩
  | none =>
    have hblocks := hin.1
    rw [HotStuffCore.insertions_of_calls hblock, List.forall_mem_map] at hblocks
    refine (HotStuffCore.linked_apply hblock).along_unevicted
      (fun hs hJ => hJ.of_pendingBlocks hs.pendingBlocks (hs.locked ▸ hJ.locked)) ?_ h
    intro call hcall all hshadows
    exact ⟨hshadows.next (hblocks call hcall),
      votesAlike_of_certifiesParent hshadows (hblocks call hcall) hrise (hcert call hcall)⟩

theorem next_of_sparesAbove (hrise : RisesToChildren P BlockHeader.height blocks)
    (hin : a.core.StaysIn P blocks input) (habove : a.core.SparesAbove P input)
    (h : Shadows P blocks a.core.state a.unevicted ∧ EvictedBelow a.core.state a.unevicted) :
    (Shadows P blocks (a.next P input).core.state (a.next P input).unevicted ∧
      EvictedBelow (a.next P input).core.state (a.next P input).unevicted) ∧
      a.VotesAlike P input := by
  obtain ⟨hshadows, hevicted⟩ := h
  unfold next VotesAlike
  cases hblock : input.block? with
  | some block =>
    have hcalls : a.core.acceptCalls P input = [] := HotStuffCore.acceptCalls_of_block hblock
    rw [hcalls]
    exact ⟨⟨HotStuffCore.shadows_apply_block hblock hin hshadows,
      HotStuffCore.evictedBelow_apply_block hblock habove hevicted⟩, trivial⟩
  | none =>
    have hblocks := hin.1
    have hbelow := habove.1
    rw [HotStuffCore.insertions_of_calls hblock, List.forall_mem_map] at hblocks hbelow
    refine (HotStuffCore.linked_apply hblock).along_unevicted (J := fun s all =>
      Shadows P blocks s all ∧ EvictedBelow s all) ?_ ?_ ⟨hshadows, hevicted⟩
    · rintro s s' all hs ⟨hJ, hE⟩
      have hheight : s'.lockedHeight = s.lockedHeight := by
        rw [lockedHeight, lockedHeight, hs.locked]
      exact ⟨hJ.of_pendingBlocks hs.pendingBlocks (hs.locked ▸ hJ.locked),
        hE.mono hs.pendingBlocks hheight.ge⟩
    · rintro call hcall all ⟨hJ, hE⟩
      exact ⟨⟨hJ.next (hblocks call hcall), hE.next (hbelow call hcall)⟩,
        votesAlike_of_evictedBelow hJ (hblocks call hcall) hrise hE (hbelow call hcall)⟩

theorem shadows_start {c : HotStuffCore} (h : c.StartsIn P blocks) :
    Shadows P blocks (start c).core.state (start c).unevicted where
  own := fun x b hb => h.1 (x, b) ((Table.mem_toList _ _ _).mpr hb)
  pending := fun _ _ hb => hb
  locked := h.2

end Archived

/-- Over every run: the evictions keep to what they should exactly if none is to take the locked
block. And the votes do not depend on them if the proposals are certified for their parents, or
if the evicted blocks are not above the lock. -/
theorem evictions_keep_iff (P : Primitives) (c : HotStuffCore) (inputs : List CoreInput) :
    (Along (HotStuffCore.apply P) (HotStuffCore.KeepsWell P) c inputs ↔
      Along (HotStuffCore.apply P) (HotStuffCore.SparesLock P) c inputs) ∧
    ∀ blocks, c.StartsIn P blocks →
      Along (HotStuffCore.apply P) (HotStuffCore.StaysIn P blocks) c inputs →
      RisesToChildren P BlockHeader.view blocks ∧
          Along (HotStuffCore.apply P) (HotStuffCore.Certifies P blocks) c inputs ∨
        RisesToChildren P BlockHeader.height blocks ∧
          Along (HotStuffCore.apply P) (HotStuffCore.SparesAbove P) c inputs →
      Along (Archived.next P) (Archived.VotesAlike P) (.start c) inputs := by
  have hcore : ∀ a input, (Archived.next P a input).core = a.core.apply P input := fun _ _ => rfl
  refine ⟨Along.congr (fun _ _ => HotStuffCore.keepsWell_iff) c inputs, ?_⟩
  intro blocks hstart hin hshape
  have hin' := (along_image hcore _ (.start c) inputs).mpr hin
  have hshadows := Archived.shadows_start hstart
  rcases hshape with ⟨hrise, hcert⟩ | ⟨hrise, habove⟩
  · have hcert' := (along_image hcore _ (.start c) inputs).mpr hcert
    refine (hin'.and hcert').imp_of_invariant
      (I := fun a => Shadows P blocks a.core.state a.unevicted) ?_ hshadows
    rintro a input ⟨hin, hcert⟩ h
    exact Archived.next_of_certifies hrise hin hcert h
  · have habove' := (along_image hcore _ (.start c) inputs).mpr habove
    have hevicted : EvictedBelow (Archived.start c).core.state (Archived.start c).unevicted :=
      fun _ _ hb => .inl hb
    refine (hin'.and habove').imp_of_invariant (I := fun a =>
      Shadows P blocks a.core.state a.unevicted ∧ EvictedBelow a.core.state a.unevicted) ?_
      ⟨hshadows, hevicted⟩
    rintro a input ⟨hin, habove⟩ h
    exact Archived.next_of_sparesAbove hrise hin habove h

namespace Sample

def sized (capacity : ℕ) : HotStuffCore :=
  .withLimits 1 (.new primitives validators genesis)
    { CacheLimits.unboundedForTests with pendingBlocksCapacity := capacity }

def aside₁ : Block := child genesis 9
def aside₂ : Block := child aside₁ 10
def aside₃ : Block := child aside₂ 11

/-- With the lock on the block of view 1, a new view brings a certificate of another branch, and
the blocks of that branch are fetched. -/
def fetches : List CoreInput :=
  [d₁, d₂, d₃].map (fun p => .event order (received p)) ++
    [.event order (.newViewReceived ⟨⟨⟨certify aside₂ [0, 1, 3]⟩, 2, 0⟩, 2⟩)] ++
    [aside₂, aside₁, aside₃].map .insertPendingBlock

/-- A block on the locked branch, certified for its parent or for the lock. -/
def after₃ (justify : QuorumCertificate) : Proposal := ⟨child d₃.block 12, justify⟩

/-- The votes for proposals that are certified for their parents do not miss the blocks. -/
theorem fetches_votesAlike :
    Along (Archived.next primitives) (Archived.VotesAlike primitives) (.start (sized 4))
      (fetches ++ [.event order (received (after₃ (certify d₃.block [0, 1, 3])))]) :=
  (evictions_keep_iff primitives (sized 4) _).2
    (genesis :: [d₁, d₂, d₃, after₃ (certify d₃.block [0, 1, 3])].map Proposal.block ++
      [aside₁, aside₂, aside₃])
    (by decide) (by decide) (.inl ⟨by decide, by decide⟩)

/-- The locked block is thrown out, and then a block on the way to it; with room for all blocks
the proposal would be voted for. -/
theorem fetches_evict_lock :
    ¬ Along (HotStuffCore.apply primitives) (HotStuffCore.KeepsWell primitives) (sized 4)
        fetches ∧
      (run (HotStuffCore.apply primitives) (sized 4) fetches).state.votesFor primitives
        (after₃ (certify d₁.block [0, 1, 3])) = false ∧
      (run (HotStuffCore.apply primitives) (sized usizeMax) fetches).state.votesFor primitives
        (after₃ (certify d₁.block [0, 1, 3])) = true := by
  rw [Along.congr fun _ _ => HotStuffCore.keepsWell_iff]
  decide

end Sample

end Boule
