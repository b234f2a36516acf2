import Boule.HotStuff.Ancestry
import Boule.HotStuff.Records

/-! How a replica judges a proposal, as a function of the pending blocks: the vote, the lock and
the commit. More pending blocks take no judgement back. -/
namespace Boule

theorem extendsAncestor_mono {pending pending' : Table BlockHash Block} {h anc : BlockHash}
    (hw : pending.Within pending') (he : extendsAncestor h anc pending = true) :
    extendsAncestor h anc pending' = true := by
  unfold extendsAncestor at he ⊢
  split_ifs at he ⊢ with hsame
  · rfl
  · rw [extendsLoop_iff] at he ⊢
    exact he.mono hw

namespace HotStuffState

/-- The voting rule on other pending blocks and another lock. -/
def passes (P : Primitives) (s : HotStuffState) (pending : Table BlockHash Block)
    (lock : Option Locked) (p : Proposal) : Bool :=
  safeToVote P p { s with pendingBlocks := pending, locked := lock }

/-- The lock that the proposal moves the replica to, on other pending blocks. -/
def movesTo (s : HotStuffState) (pending : Table BlockHash Block) (p : Proposal) :
    Option Locked :=
  (twoChainCandidate { s with pendingBlocks := pending } p.block.header.parentHash).filter
    fun l => s.lockedHeight < l.height

/-- The block that the proposal's certificate commits, on other pending blocks. -/
def wouldCommit (s : HotStuffState) (pending : Table BlockHash Block) (p : Proposal) :
    Option Block :=
  threeChainCommit p.justify { s with pendingBlocks := pending }

variable {P : Primitives} {s : HotStuffState} {X X' : Table BlockHash Block}
  {lock : Option Locked} {p : Proposal}

theorem passes_iff : s.passes P X lock p = true ↔
    s.lastVotedView < p.block.header.view ∧ ∀ l ∈ lock,
      extendsAncestor (p.block.hash P) l.blockHash X = true ∨ l.view < p.justify.view := by
  unfold passes safeToVote
  cases lock with
  | none => simp
  | some l => simp

theorem passes_mono (hw : X.Within X') (h : s.passes P X lock p = true) :
    s.passes P X' lock p = true := by
  rw [passes_iff] at h ⊢
  exact ⟨h.1, fun l hl => (h.2 l hl).imp_left (extendsAncestor_mono hw)⟩

theorem twoChainCandidate_mono {h : BlockHash} {l : Locked} (hw : X.Within X')
    (hl : twoChainCandidate { s with pendingBlocks := X } h = some l) :
    twoChainCandidate { s with pendingBlocks := X' } h = some l := by
  unfold twoChainCandidate getPending at hl ⊢
  obtain ⟨b, hb, hl⟩ := Option.bind_eq_some_iff.mp hl
  obtain ⟨b', hb', rfl⟩ := Option.map_eq_some_iff.mp hl
  simp only [hw _ b hb, hw _ b' hb', Option.bind_some, Option.map_some]

theorem movesTo_mono {l : Locked} (hw : X.Within X') (hl : s.movesTo X p = some l) :
    s.movesTo X' p = some l := by
  unfold movesTo at hl ⊢
  rw [Option.filter_eq_some_iff] at hl ⊢
  exact ⟨twoChainCandidate_mono hw hl.1, hl.2⟩

theorem wouldCommit_eq_some_iff {b : Block} : s.wouldCommit X p = some b ↔
    ∃ b2 b3, ThreeChain { s with pendingBlocks := X } p.justify b b2 b3 := by
  unfold wouldCommit
  constructor
  · exact threeChain_of_threeChainCommit
  · rintro ⟨b2, b3, h3, h2, h1, hv3, hn3, hn2⟩
    unfold getPending at h3 h2 h1
    simp [threeChainCommit, h3, h2, h1, hv3, hn3, hn2]

theorem wouldCommit_mono {b : Block} (hw : X.Within X') (hb : s.wouldCommit X p = some b) :
    s.wouldCommit X' p = some b := by
  rw [wouldCommit_eq_some_iff] at hb ⊢
  obtain ⟨b2, b3, h⟩ := hb
  exact ⟨b2, b3, hw _ _ h.get_b3, hw _ _ h.get_b2, hw _ _ h.get_b1, h.view_b3, h.next_b3, h.next_b2⟩

theorem option_eq_of_between {α : Type} {o o' o'' : Option α} (h : ∀ a, o = some a → o' = some a)
    (h' : ∀ a, o' = some a → o'' = some a) (he : o = o'') : o' = o'' := by
  cases ho' : o' with
  | some a => exact (h' a ho').symm
  | none =>
    cases ho : o with
    | none => rw [← he, ho]
    | some a =>
      rw [h a ho] at ho'
      cases ho'

/-! ### Proposals that are taken up together -/

variable (P s)

def withBlock (p : Proposal) : Table BlockHash Block :=
  s.pendingBlocks.insert (p.block.hash P) p.block

/-- The pending blocks with those of the proposals. -/
def withBlocks (ready : List Proposal) : Table BlockHash Block :=
  ready.foldl (fun t p => t.insert (p.block.hash P) p.block) s.pendingBlocks

/-- The vote, the lock and the commit of a proposal with all of these proposals' blocks there. -/
abbrev judgedVote (ready : List Proposal) (p : Proposal) : Bool :=
  s.passes P (s.withBlocks P ready) s.locked p

abbrev judgedLock (ready : List Proposal) (p : Proposal) : Option Locked :=
  s.movesTo (s.withBlocks P ready) p

abbrev judgedCommit (ready : List Proposal) (p : Proposal) : Option Block :=
  s.wouldCommit (s.withBlocks P ready) p

/-- These pending blocks suffice to judge the proposal, also after a lock that one of them moves
to. -/
structure JudgedAlike (ready : List Proposal) (X : Table BlockHash Block) (p : Proposal) :
    Prop where
  vote : s.passes P X s.locked p = s.judgedVote P ready p
  voteAfter : ∀ m ∈ ready, ∀ l ∈ s.judgedLock P ready m,
    s.passes P X (some l) p = s.passes P (s.withBlocks P ready) (some l) p
  lock : s.movesTo X p = s.judgedLock P ready p

variable {P s} in
theorem JudgedAlike.between {ready : List Proposal} (h : JudgedAlike P s ready X p)
    (hw : X.Within X') (hw' : X'.Within (s.withBlocks P ready)) : JudgedAlike P s ready X' p where
  vote := by
    rw [Bool.eq_iff_iff]
    exact ⟨passes_mono hw', fun hv => passes_mono hw (h.vote.trans hv)⟩
  voteAfter := by
    intro m hm l hl
    rw [Bool.eq_iff_iff]
    exact ⟨passes_mono hw', fun hv => passes_mono hw ((h.voteAfter m hm l hl).trans hv)⟩
  lock := option_eq_of_between (fun _ => movesTo_mono hw) (fun _ => movesTo_mono hw') h.lock

/-- There is room for the blocks of all of them, and to judge one of them the blocks of the others
are not needed, nor what another one's commit prunes. -/
structure JudgedApart (ready : List Proposal) : Prop where
  room : s.pendingBlocks.size +
      (ready.filter fun p => !s.pendingBlocks.containsKey (p.block.hash P)).length ≤
    s.pendingBlocksCapacity
  pending : ∀ p ∈ ready, ∀ b ∈ s.getPending (p.block.hash P), b = p.block
  alone : ∀ p ∈ ready, JudgedAlike P s ready (s.withBlock P p) p
  commit : ∀ p ∈ ready, s.wouldCommit (s.withBlock P p) p = s.judgedCommit P ready p
  pruned : ∀ p ∈ ready, ∀ q ∈ ready, p ≠ q → ∀ c ∈ s.judgedCommit P ready q,
    c.header.height < p.block.header.height ∧
      (∀ y ∈ s.getPending p.block.header.parentHash, c.header.height < y.header.height) ∧
      JudgedAlike P s ready
        ((s.withBlock P p).retain fun _ b => c.header.height < b.header.height) p

/-- At most one of `ps` is voted for, all that move the lock move it to the same one, all that
commit commit the same block; and the lock that one moves to changes the vote for no other one,
except to let in a view that is not above the one's own, which was voted for. -/
structure Agree (ready ps : List Proposal) : Prop where
  vote : ∀ p ∈ ps, ∀ q ∈ ps, s.judgedVote P ready p = true →
    s.judgedVote P ready q = true → p = q
  lock : ∀ p ∈ ps, ∀ q ∈ ps, ∀ l ∈ s.judgedLock P ready p,
    ∀ l' ∈ s.judgedLock P ready q, l = l'
  commit : ∀ p ∈ ps, ∀ q ∈ ps, ∀ b ∈ s.judgedCommit P ready p,
    ∀ b' ∈ s.judgedCommit P ready q, b = b'
  voteAfterLock : ∀ m ∈ ps, ∀ q ∈ ps, m ≠ q → ∀ l ∈ s.judgedLock P ready m,
    s.passes P (s.withBlocks P ready) (some l) q = s.judgedVote P ready q ∨
      s.judgedVote P ready m = true ∧ q.block.header.view ≤ m.block.header.view

variable {P s} in
theorem Agree.mono {ready ps ps' : List Proposal} (h : Agree P s ready ps)
    (hsub : ∀ p ∈ ps', p ∈ ps) : Agree P s ready ps' where
  vote := fun p hp q hq => h.vote p (hsub p hp) q (hsub q hq)
  lock := fun p hp q hq => h.lock p (hsub p hp) q (hsub q hq)
  commit := fun p hp q hq => h.commit p (hsub p hp) q (hsub q hq)
  voteAfterLock := fun m hm q hq => h.voteAfterLock m (hsub m hm) q (hsub q hq)

/-- A proposal agrees with itself. -/
theorem Agree.singleton (ready : List Proposal) (p : Proposal) : Agree P s ready [p] where
  vote := by simp
  lock := by
    simp only [List.mem_singleton, forall_eq]
    exact fun l hl l' hl' => Option.mem_unique hl hl'
  commit := by
    simp only [List.mem_singleton, forall_eq]
    exact fun b hb b' hb' => Option.mem_unique hb hb'
  voteAfterLock := by simp

instance (ready : List Proposal) (X : Table BlockHash Block) (p : Proposal) :
    Decidable (JudgedAlike P s ready X p) :=
  decidable_of_iff (_ ∧ (∀ m ∈ ready, ∀ l ∈ s.judgedLock P ready m, _) ∧ _)
    ⟨fun h => ⟨h.1, h.2.1, h.2.2⟩, fun h => ⟨h.vote, h.voteAfter, h.lock⟩⟩

instance (ready : List Proposal) : Decidable (JudgedApart P s ready) :=
  decidable_of_iff (_ ∧ (∀ p ∈ ready, ∀ b ∈ s.getPending (p.block.hash P), _) ∧
      (∀ p ∈ ready, _) ∧ (∀ p ∈ ready, _) ∧
      ∀ p ∈ ready, ∀ q ∈ ready, _ → ∀ c ∈ s.judgedCommit P ready q,
        _ ∧ (∀ y ∈ s.getPending p.block.header.parentHash, _) ∧ _)
    ⟨fun h => ⟨h.1, h.2.1, h.2.2.1, h.2.2.2.1, h.2.2.2.2⟩,
      fun h => ⟨h.room, h.pending, h.alone, h.commit, h.pruned⟩⟩

instance (ready ps : List Proposal) : Decidable (Agree P s ready ps) :=
  decidable_of_iff ((∀ p ∈ ps, ∀ q ∈ ps, _) ∧
      (∀ p ∈ ps, ∀ q ∈ ps, ∀ l ∈ s.judgedLock P ready p, ∀ l' ∈ s.judgedLock P ready q, _) ∧
      (∀ p ∈ ps, ∀ q ∈ ps, ∀ b ∈ s.judgedCommit P ready p,
        ∀ b' ∈ s.judgedCommit P ready q, _) ∧
      ∀ m ∈ ps, ∀ q ∈ ps, _ → ∀ l ∈ s.judgedLock P ready m, _)
    ⟨fun h => ⟨h.1, h.2.1, h.2.2.1, h.2.2.2⟩,
      fun h => ⟨h.vote, h.lock, h.commit, h.voteAfterLock⟩⟩

/-- The proposals are known by their hashes. -/
def Distinct (ready : List Proposal) : Prop :=
  ∀ p ∈ ready, ∀ q ∈ ready, p.block.hash P = q.block.hash P → p = q

variable {P s} {ready : List Proposal}

theorem get?_withBlocks (hd : Distinct P ready)
    (hpending : ∀ p ∈ ready, ∀ b ∈ s.getPending (p.block.hash P), b = p.block) (h : BlockHash)
    (b : Block) : (s.withBlocks P ready).get? h = some b ↔
      s.getPending h = some b ∨ ∃ p ∈ ready, h = p.block.hash P ∧ b = p.block := by
  unfold withBlocks getPending at *
  generalize s.pendingBlocks = t at *
  induction ready generalizing t with
  | nil => simp
  | cons p ready ih =>
    have hd' : Distinct P ready := fun q hq r hr =>
      hd q (List.mem_cons_of_mem _ hq) r (List.mem_cons_of_mem _ hr)
    have hinsert : ∀ q ∈ ready, ∀ b ∈ Table.get? (t.insert (p.block.hash P) p.block)
        (q.block.hash P), b = q.block := by
      intro q hq b hb
      rw [Option.mem_def, Table.get?_insert] at hb
      split_ifs at hb with he
      · have hsame := hd q (List.mem_cons_of_mem _ hq) p (List.mem_cons_self ..) he
        rw [← Option.some.inj hb, hsame]
      · exact hpending q (List.mem_cons_of_mem _ hq) b hb
    rw [List.foldl_cons, ih hd' _ hinsert, Table.get?_insert]
    simp only [List.exists_mem_cons_iff]
    by_cases he : h = p.block.hash P
    · rw [if_pos he]
      have hold : t.get? h = some b → b = p.block := fun hb =>
        hpending p (List.mem_cons_self ..) b (he ▸ hb)
      constructor
      · rintro (hb | hrest)
        · exact .inr (.inl ⟨he, (Option.some.inj hb).symm⟩)
        · exact .inr (.inr hrest)
      · rintro (hb | ⟨-, hb⟩ | hrest)
        · exact .inl (by rw [hold hb])
        · exact .inl (by rw [hb])
        · exact .inr hrest
    · rw [if_neg he]
      simp [he]

end HotStuffState

end Boule
