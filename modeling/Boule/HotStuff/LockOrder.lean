import Boule.HotStuff.Calls
import Boule.HotStuff.Headers
import Boule.Lib.Run

/-! The order of the locks of a step, and of its locks and votes. The lock moves by height, and
one step may accept many proposals. -/
namespace Boule

/-- A lock is not lost, and its view and its height do not decrease. -/
def LockLe (lock lock' : Option Locked) : Prop :=
  ∀ l ∈ lock, ∃ l' ∈ lock', l.view ≤ l'.view ∧ l.height ≤ l'.height

theorem LockLe.refl (lock : Option Locked) : LockLe lock lock :=
  fun l hl => ⟨l, hl, Nat.le_refl _, Nat.le_refl _⟩

namespace Action

def isVote : Action → Bool
  | .broadcast (.vote _) => true
  | _ => false

def locked? : Action → Option Locked
  | .persist (.locked l) => some l
  | _ => none

end Action

/-- The loop of `debug_assert_lock_durable_before_vote`; the index of the vote, which only the
message names, is left out. -/
def lockDurableBeforeVote : Bool → List Action → Bool
  | _, [] => true
  | seenVote, action :: actions =>
    match action with
    | .broadcast (.vote _) => lockDurableBeforeVote true actions
    | .persist (.locked _) => !seenVote && lockDurableBeforeVote seenVote actions
    | _ => lockDurableBeforeVote seenVote actions

def debugAssertLockDurableBeforeVote (actions : List Action) : Bool :=
  lockDurableBeforeVote false actions

/-- The second action is not a lock after a vote. -/
def Action.LockFirst (a b : Action) : Prop := a.isVote = true → b.locked? = none

instance : DecidableRel Action.LockFirst := fun a b =>
  inferInstanceAs (Decidable (a.isVote = true → b.locked? = none))

theorem lockDurableBeforeVote_cons (seenVote : Bool) (a : Action) (actions : List Action) :
    lockDurableBeforeVote seenVote (a :: actions) =
      ((!seenVote || a.locked?.isNone) &&
        lockDurableBeforeVote (seenVote || a.isVote) actions) := by
  cases a with
  | broadcast msg => cases msg <;> simp [lockDurableBeforeVote, Action.locked?, Action.isVote]
  | persist update => cases update <;> simp [lockDurableBeforeVote, Action.locked?, Action.isVote]
  | _ => simp [lockDurableBeforeVote, Action.locked?, Action.isVote]

theorem lockDurableBeforeVote_iff (seenVote : Bool) (actions : List Action) :
    lockDurableBeforeVote seenVote actions = true ↔
      actions.Pairwise Action.LockFirst ∧
        (seenVote = true → ∀ a ∈ actions, a.locked? = none) := by
  induction actions generalizing seenVote with
  | nil => simp [lockDurableBeforeVote]
  | cons a actions ih =>
    rw [lockDurableBeforeVote_cons, Bool.and_eq_true, ih, List.pairwise_cons, List.forall_mem_cons]
    unfold Action.LockFirst
    cases seenVote <;> cases a.isVote <;> simp <;> tauto

theorem debugAssertLockDurableBeforeVote_iff (actions : List Action) :
    debugAssertLockDurableBeforeVote actions = true ↔ actions.Pairwise Action.LockFirst := by
  simp [debugAssertLockDurableBeforeVote, lockDurableBeforeVote_iff]

open HotStuffState

namespace AcceptCall
variable (P : Primitives) (call : AcceptCall)

/-- The lock that the proposal moves to, if it moves the lock. -/
def newLock : Option Locked :=
  match call.1.lockCandidate P call.2 with
  | none => none
  | some candidate => if call.1.lockedHeight < candidate.height then some candidate else none

theorem next_locked : (call.next P).locked = (call.newLock P).or call.1.locked := by
  have hnext : (call.next P).locked = call.1.nextLock P call.2 :=
    acceptProposal_locked P call.1 call.2
  rw [hnext, nextLock, newLock]
  cases call.1.lockCandidate P call.2 with
  | none => rfl
  | some candidate => by_cases h : call.1.lockedHeight < candidate.height <;> simp [h]

theorem lockActions_eq : call.1.lockActions P call.2 =
    ((call.newLock P).map fun l => .persist (.locked l)).toList := by
  rw [lockActions, newLock]
  cases call.1.lockCandidate P call.2 with
  | none => rfl
  | some candidate => by_cases h : call.1.lockedHeight < candidate.height <;> simp [h]

theorem newLock_eq_some_iff (l : Locked) : call.newLock P = some l ↔
    call.1.lockCandidate P call.2 = some l ∧ call.1.lockedHeight < l.height := by
  unfold newLock
  cases hc : call.1.lockCandidate P call.2 with
  | none => simp
  | some candidate =>
    simp only [Option.ite_none_right_eq_some, Option.some.injEq]
    constructor
    · rintro ⟨hlt, rfl⟩
      exact ⟨rfl, hlt⟩
    · rintro ⟨rfl, hlt⟩
      exact ⟨hlt, rfl⟩

theorem safetyActions_eq : call.safetyActions P =
    (if call.1.votesFor P call.2 then
      [.persist (.votedInView call.2.block.header.view)] else []) ++
    ((call.newLock P).map fun l => .persist (.locked l)).toList ++
    (if call.1.votesFor P call.2 then
      [.broadcast (.vote ⟨call.2.block.header.view, call.2.block.hash P⟩)] else []) ++
    ((call.1.commits P call.2).map Action.commit).toList := by
  rw [safetyActions, acceptProposal_safety, lockActions_eq]

theorem filterMap_locked_safetyActions :
    (call.safetyActions P).filterMap Action.locked? = (call.newLock P).toList := by
  rw [safetyActions_eq]
  cases call.1.votesFor P call.2 <;> cases call.newLock P <;> cases call.1.commits P call.2 <;>
    rfl

theorem pairwise_safetyActions : (call.safetyActions P).Pairwise Action.LockFirst := by
  rw [safetyActions_eq]
  cases call.1.votesFor P call.2 <;> cases call.newLock P <;> cases call.1.commits P call.2 <;>
    simp [Action.LockFirst, Action.isVote, Action.locked?]

theorem exists_isVote_safetyActions : (∃ a ∈ call.safetyActions P, a.isVote = true) ↔
    call.1.votesFor P call.2 = true := by
  rw [safetyActions_eq]
  cases call.1.votesFor P call.2 <;> cases call.newLock P <;> cases call.1.commits P call.2 <;>
    simp [Action.isVote]

theorem exists_locked_safetyActions : (∃ a ∈ call.safetyActions P, a.locked? ≠ none) ↔
    call.newLock P ≠ none := by
  rw [safetyActions_eq]
  cases call.1.votesFor P call.2 <;> cases call.newLock P <;> cases call.1.commits P call.2 <;>
    simp [Action.locked?]

/-- The lock it moves to is not of an earlier view than the one it replaces. -/
def LocksLater : Prop := ∀ l ∈ call.newLock P, ∀ l₀ ∈ call.1.locked, l₀.view ≤ l.view

/-- It is voted for, and `call'` moves the lock. -/
def VotesBeforeLock (call' : AcceptCall) : Prop :=
  call.1.votesFor P call.2 = true ∧ call'.newLock P ≠ none

instance : Decidable (call.LocksLater P) :=
  inferInstanceAs (Decidable (∀ l ∈ call.newLock P, _))

instance (call' : AcceptCall) : Decidable (call.VotesBeforeLock P call') :=
  inferInstanceAs (Decidable (_ ∧ _))

variable {P call}

theorem lockLe_newLock {l : Locked} (h : call.newLock P = some l) :
    LockLe call.1.locked (some l) ↔ call.LocksLater P := by
  obtain ⟨-, hhigher⟩ := (call.newLock_eq_some_iff P l).mp h
  unfold LockLe LocksLater
  rw [h]
  cases hl : call.1.locked with
  | none => simp
  | some l₀ =>
    have hheight : l₀.height ≤ l.height := by
      rw [lockedHeight, hl] at hhigher
      exact Nat.le_of_lt hhigher
    simp [hheight]

theorem lockFirst_iff {call' : AcceptCall} :
    (∀ a ∈ call.safetyActions P, ∀ b ∈ call'.safetyActions P, Action.LockFirst a b) ↔
      ¬ call.VotesBeforeLock P call' := by
  rw [VotesBeforeLock, ← exists_isVote_safetyActions, ← exists_locked_safetyActions]
  constructor
  · rintro h ⟨⟨a, ha, hvote⟩, b, hb, hlock⟩
    exact hlock (h a ha b hb hvote)
  · intro h a ha b hb hvote
    by_contra hlock
    exact h ⟨⟨a, ha, hvote⟩, b, hb, hlock⟩

end AcceptCall

theorem lockedHeight_le_next (P : Primitives) (call : AcceptCall) :
    call.1.lockedHeight ≤ (call.next P).lockedHeight := by
  have hlocked := call.next_locked P
  cases hl : call.newLock P with
  | none =>
    have hsame : (call.next P).locked = call.1.locked := by simpa [hl] using hlocked
    rw [lockedHeight, lockedHeight, hsame]
  | some l =>
    have hnew : (call.next P).locked = some l := by simpa [hl] using hlocked
    obtain ⟨-, hlt⟩ := (call.newLock_eq_some_iff P l).mp hl
    have hheight : (call.next P).lockedHeight = l.height := by
      rw [lockedHeight, hnew]
      rfl
    omega

theorem Action.filterMap_locked_filter (l : List Action) :
    (l.filter Action.isSafety).filterMap Action.locked? = l.filterMap Action.locked? := by
  rw [List.filterMap_filter]
  refine List.filterMap_congr fun a _ => ?_
  cases a with
  | persist update => cases update <;> rfl
  | _ => exact ite_self _

theorem Action.pairwise_filter (l : List Action) :
    (l.filter Action.isSafety).Pairwise Action.LockFirst ↔ l.Pairwise Action.LockFirst := by
  rw [List.pairwise_filter]
  have hsafety : ∀ a b : Action,
      (a.isSafety = true → b.isSafety = true → a.LockFirst b) ↔ a.LockFirst b := by
    intro a b
    refine ⟨fun h hvote => ?_, fun h _ _ => h⟩
    have ha : a.isSafety = true := by
      unfold Action.isVote at hvote
      split at hvote
      · rfl
      · cases hvote
    by_contra hlock
    have hb : b.isSafety = true := by
      unfold Action.locked? at hlock
      split at hlock
      · rfl
      · exact absurd rfl hlock
    exact hlock (h ha hb hvote)
  simp only [hsafety]

/-- Along linked proposals the lock ascends exactly if each of them locks later. -/
theorem Linked.isChain_lockLe_iff {P : Primitives} {s s' : HotStuffState}
    {calls : List AcceptCall} (h : Linked P s calls s') :
    (s.locked :: (calls.flatMap fun call => (call.newLock P).toList).map some ++
      [s'.locked]).IsChain LockLe ↔ ∀ call ∈ calls, call.LocksLater P := by
  induction calls generalizing s with
  | nil =>
    have hsame : s'.locked = s.locked := SameSafety.locked h
    simp [hsame, LockLe.refl]
  | cons call calls ih =>
    obtain ⟨hsame, -, hrest⟩ := h
    have hnext := call.next_locked P
    have hrest := ih hrest
    rw [List.forall_mem_cons, ← hrest, ← hsame.locked, hnext, List.flatMap_cons]
    cases hl : call.newLock P with
    | none =>
      have hlater : call.LocksLater P := by simp [AcceptCall.LocksLater, hl]
      simp [hlater]
    | some l =>
      rw [← AcceptCall.lockLe_newLock hl]
      simp

namespace HotStuffCore

/-- The lock before the step, the locks that the step persists, and the lock after it. -/
def stepLocks (P : Primitives) (c : HotStuffCore) (input : IterOrder × Event) :
    List (Option Locked) :=
  c.state.locked :: ((c.step P input.1 input.2).2.filterMap Action.locked?).map some ++
    [(c.next P input).state.locked]

/-- The lock never goes back, and no vote is sent before a lock of the same step. -/
structure LockDiscipline (P : Primitives) (c : HotStuffCore) (input : IterOrder × Event) :
    Prop where
  ascends : (c.stepLocks P input).IsChain LockLe
  lockFirst : (c.step P input.1 input.2).2.Pairwise Action.LockFirst
  asserted : debugAssertLockDurableBeforeVote (c.step P input.1 input.2).2 = true

/-- Every accepted proposal that moves the lock moves it to no earlier view, and none of them is
accepted after one that is voted for. -/
structure LocksInOrder (P : Primitives) (c : HotStuffCore) (input : IterOrder × Event) :
    Prop where
  later : ∀ call ∈ c.stepCalls P input.1 input.2, call.LocksLater P
  beforeVotes : (c.stepCalls P input.1 input.2).Pairwise
    fun call call' => ¬ call.VotesBeforeLock P call'

instance (P : Primitives) (c : HotStuffCore) : DecidablePred (c.LocksInOrder P) := fun input =>
  decidable_of_iff ((∀ call ∈ c.stepCalls P input.1 input.2, call.LocksLater P) ∧
      (c.stepCalls P input.1 input.2).Pairwise fun call call' => ¬ call.VotesBeforeLock P call')
    ⟨fun h => ⟨h.1, h.2⟩, fun h => ⟨h.later, h.beforeVotes⟩⟩

variable {P : Primitives} {c : HotStuffCore} {input : IterOrder × Event}

theorem lockDiscipline_iff : c.LockDiscipline P input ↔ c.LocksInOrder P input := by
  have hstep := handles_step P input.1 c input.2
  have hlocks : (c.stepLocks P input).IsChain LockLe ↔
      ∀ call ∈ c.stepCalls P input.1 input.2, call.LocksLater P := by
    rw [← hstep.linked.isChain_lockLe_iff, stepLocks, ← Action.filterMap_locked_filter,
      hstep.actions, List.filterMap_flatMap]
    simp only [AcceptCall.filterMap_locked_safetyActions]
    rfl
  have hvotes : (c.step P input.1 input.2).2.Pairwise Action.LockFirst ↔
      (c.stepCalls P input.1 input.2).Pairwise
        fun call call' => ¬ call.VotesBeforeLock P call' := by
    rw [← Action.pairwise_filter, hstep.actions, List.pairwise_flatMap]
    simp only [AcceptCall.pairwise_safetyActions, AcceptCall.lockFirst_iff, implies_true,
      true_and]
  constructor
  · intro h
    exact ⟨hlocks.mp h.ascends, hvotes.mp h.lockFirst⟩
  · intro h
    have hfirst := hvotes.mpr h.beforeVotes
    exact ⟨hlocks.mpr h.later, hfirst, (debugAssertLockDurableBeforeVote_iff _).mpr hfirst⟩

end HotStuffCore

/-- Over every run: the lock goes back nowhere and no vote leaves before a lock of its step,
exactly if in every step the proposals lock later and before the votes. -/
theorem lock_discipline_iff (P : Primitives) (c : HotStuffCore)
    (inputs : List (IterOrder × Event)) :
    Along (HotStuffCore.next P) (HotStuffCore.LockDiscipline P) c inputs ↔
      Along (HotStuffCore.next P) (HotStuffCore.LocksInOrder P) c inputs :=
  Along.congr (fun _ _ => HotStuffCore.lockDiscipline_iff) c inputs

/-- Views increase from every block to its children. -/
def ViewsIncrease (P : Primitives) (blocks : List Block) : Prop :=
  ∀ b ∈ blocks, ∀ b' ∈ blocks, b'.header.parentHash = b.hash P → b.header.view < b'.header.view

instance (P : Primitives) (blocks : List Block) : Decidable (ViewsIncrease P blocks) :=
  inferInstanceAs (Decidable (∀ b ∈ blocks, _))

namespace Sample

def g₁ : Proposal := propose genesis 1 []
def g₂ : Proposal := propose g₁.block 3 [0, 1, 3]
def g₃ : Proposal := propose g₂.block 5 [0, 1, 3]
def g₄ : Proposal := propose g₃.block 7 [0, 1, 3]
def g₅ : Proposal := propose g₄.block 8 [0, 1, 3]
def g₆ : Proposal := propose g₅.block 9 [0, 1, 3]
def f₂ : Proposal := propose g₁.block 6 [0, 1, 3]
def f₃ : Proposal := propose f₂.block 10 [0, 1, 3]
def f₄ : Proposal := propose f₃.block 11 [0, 1, 3]
def f₅ : Proposal := propose f₄.block 12 [0, 1, 3]

/-- A fork of late views, and then a higher one of earlier views. -/
def twoForks : List Proposal := [g₁, f₂, f₃, f₄, f₅, g₂, g₃, g₄, g₅, g₆]

def apart₁ : Proposal := propose genesis 4 []
def apart₂ : Proposal := propose apart₁.block 5 [0, 1, 3]
def late₃ : Proposal := propose g₂.block 6 [0, 1, 3]

/-- Two proposals wait for their parents until the replica enters view 7. -/
def bothParked : List Event :=
  [late₃, apart₂, apart₁, g₁, g₂].map received ++ [.pacemakerAdvance 7]

/-- The higher fork takes the lock from view 10 to view 7, and a replay votes for one proposal
before it locks for the other. -/
theorem not_lock_discipline :
    (ViewsIncrease primitives (genesis :: twoForks.map Proposal.block) ∧
      ¬ Along (HotStuffCore.next primitives) (HotStuffCore.LockDiscipline primitives)
        (.new 1 (.new primitives validators genesis)) (twoForks.map fun p => (order, received p))) ∧
    (ViewsIncrease primitives (genesis :: [apart₁, apart₂, g₁, g₂, late₃].map Proposal.block) ∧
      ¬ Along (HotStuffCore.next primitives) (HotStuffCore.LockDiscipline primitives)
        (.new 1 (.new primitives validators genesis)) (bothParked.map fun e => (order, e))) := by
  rw [Along.congr fun _ _ => HotStuffCore.lockDiscipline_iff,
    Along.congr fun _ _ => HotStuffCore.lockDiscipline_iff]
  decide

end Sample

end Boule
