import Boule.HotStuff.Headers
import Boule.Lib.Run
import Boule.Pacemaker.Step

/-! Additions to views. The pacemaker, the vote handler and the commit rule add one to a view
unchecked, and from the last view of `u64` that leads back to view zero. -/
namespace Boule

/-- `u64::MAX` -/
def u64Max : ℕ := 2 ^ 64 - 1

theorem addU64_one_eq_iff {v : ℕ} (hv : v ≤ u64Max) : addU64 v 1 = v + 1 ↔ v ≠ u64Max := by
  have hmax : u64Max = 2 ^ 64 - 1 := rfl
  unfold addU64
  omega

theorem addU64_one_of_ne {v : ℕ} (hv : v ≤ u64Max) (hne : v ≠ u64Max) : addU64 v 1 = v + 1 :=
  (addU64_one_eq_iff hv).mpr hne

/-- The additions of one to these views do not wrap. -/
def NoneWraps (views : List ℕ) : Prop := ∀ v ∈ views, addU64 v 1 = v + 1

instance : DecidablePred NoneWraps := fun views =>
  inferInstanceAs (Decidable (∀ v ∈ views, addU64 v 1 = v + 1))

/-! ### The pacemaker -/

namespace PacemakerEvent

def view : PacemakerEvent → ℕ
  | onQc v | onTimeoutCert v | onTimeout v | onProposalReceived v | onRoundSync v => v

/-- A certificate is not for the last view. -/
def BelowMax : PacemakerEvent → Prop
  | onQc v | onTimeoutCert v => v ≠ u64Max
  | _ => True

instance : DecidablePred BelowMax := fun event => by
  cases event <;> unfold BelowMax <;> infer_instance

end PacemakerEvent

namespace Pacemaker

/-- The selector of the moment, as the views it gives to this node, and the event. -/
abbrev Input := (ℕ → Bool) × PacemakerEvent

def next (pm : Pacemaker) (input : Input) : Pacemaker := (pm.step input.1 input.2).1

/-- The views to which a step adds one. -/
def additions (pm : Pacemaker) : PacemakerEvent → List ℕ
  | .onQc v | .onTimeoutCert v => if v < pm.currentView then [] else [v]
  | _ => []

/-- The step wraps nowhere and goes back nowhere. -/
structure Ascends (pm : Pacemaker) (input : Input) : Prop where
  noneWraps : NoneWraps (pm.additions input.2)
  currentView : pm.currentView ≤ (pm.next input).currentView
  advances : ∀ v cause, .advanceToView v cause ∈ (pm.step input.1 input.2).2 → pm.currentView < v
  highQcView : pm.highQcView ≤ (pm.next input).highQcView

variable {pm : Pacemaker} {leads : ℕ → Bool}

theorem advance_mem_advanceTo {view newView : ℕ} {cause newCause : AdvanceCause}
    (h : .advanceToView view cause ∈ (pm.advanceTo leads newView newCause).2) :
    view = newView := by
  unfold advanceTo at h
  split_ifs at h <;> simp at h <;> exact h.1

/-- An advance to a later view ascends. -/
theorem ascends_of_advanceTo {event : PacemakerEvent} {pm' : Pacemaker} {newView : ℕ}
    {cause : AdvanceCause} (hadd : NoneWraps (pm.additions event))
    (hstep : pm.step leads event = pm'.advanceTo leads newView cause)
    (hhigh : pm.highQcView ≤ pm'.highQcView) (hlt : pm.currentView < newView) :
    pm.Ascends (leads, event) := by
  have hnext : pm.next (leads, event) = (pm'.advanceTo leads newView cause).1 :=
    congrArg Prod.fst hstep
  constructor
  · exact hadd
  · rw [hnext]
    exact Nat.le_of_lt hlt
  · intro v cause' hmem
    rw [hstep] at hmem
    rwa [advance_mem_advanceTo hmem]
  · rw [hnext]
    exact hhigh

/-- A step that stays in its view ascends. -/
theorem ascends_of_stays {event : PacemakerEvent} (hadd : pm.additions event = [])
    (hview : (pm.next (leads, event)).currentView = pm.currentView)
    (hhigh : (pm.next (leads, event)).highQcView = pm.highQcView)
    (hnone : ∀ v cause, .advanceToView v cause ∉ (pm.step leads event).2) :
    pm.Ascends (leads, event) := by
  constructor
  · simp [hadd, NoneWraps]
  · exact Nat.le_of_eq hview.symm
  · exact fun v cause hmem => absurd hmem (hnone v cause)
  · exact Nat.le_of_eq hhigh.symm

theorem ascends_of_belowMax {event : PacemakerEvent} (hview : event.view ≤ u64Max)
    (h : event.BelowMax) : pm.Ascends (leads, event) := by
  cases event with
  | onQc v =>
    by_cases hstale : v < pm.currentView
    · apply ascends_of_stays <;> simp [additions, next, step, hstale]
    · have hnext : addU64 v 1 = v + 1 := addU64_one_of_ne hview h
      refine ascends_of_advanceTo ?_ (if_neg hstale) (le_max_left _ _) ?_
      · simp [additions, hstale, NoneWraps, hnext]
      · omega
  | onTimeoutCert v =>
    by_cases hstale : v < pm.currentView
    · apply ascends_of_stays <;> simp [additions, next, step, hstale]
    · have hnext : addU64 v 1 = v + 1 := addU64_one_of_ne hview h
      refine ascends_of_advanceTo ?_ (if_neg hstale) (Nat.le_refl _) ?_
      · simp [additions, hstale, NoneWraps, hnext]
      · omega
  | onTimeout v =>
    by_cases hother : v = pm.currentView <;> apply ascends_of_stays <;>
      simp [additions, next, step, hother]
  | onProposalReceived v =>
    by_cases hother : v = pm.currentView <;> apply ascends_of_stays <;>
      simp [additions, next, step, hother]
  | onRoundSync v =>
    by_cases hstale : v ≤ pm.currentView
    · apply ascends_of_stays <;> simp [additions, next, step, hstale]
    · refine ascends_of_advanceTo ?_ (if_neg hstale) (Nat.le_refl _) ?_
      · simp [additions, NoneWraps]
      · omega

/-- A certificate for the last view is never stale, so its addition is made. -/
theorem belowMax_of_ascends {event : PacemakerEvent} (hview : event.view ≤ u64Max)
    (hpm : pm.currentView ≤ u64Max) (h : pm.Ascends (leads, event)) : event.BelowMax := by
  have hcertificate : ∀ v ≤ u64Max, NoneWraps (if v < pm.currentView then [] else [v]) →
      v ≠ u64Max := by
    intro v hv hnone hmax
    have hfresh : ¬ v < pm.currentView := by omega
    rw [if_neg hfresh] at hnone
    exact (addU64_one_eq_iff hv).mp (hnone v (List.mem_singleton_self v)) hmax
  cases event with
  | onQc v => exact hcertificate v hview h.noneWraps
  | onTimeoutCert v => exact hcertificate v hview h.noneWraps
  | _ => trivial

theorem addU64_le (a b : ℕ) : addU64 a b ≤ u64Max := by
  have hmax : u64Max = 2 ^ 64 - 1 := rfl
  unfold addU64
  omega

theorem currentView_next_le {input : Input} (hview : input.2.view ≤ u64Max)
    (hpm : pm.currentView ≤ u64Max) : (pm.next input).currentView ≤ u64Max := by
  obtain ⟨leads, event⟩ := input
  cases event with
  | onQc v =>
    simp only [next, step]
    split_ifs
    · exact hpm
    · exact addU64_le v 1
  | onTimeoutCert v =>
    simp only [next, step]
    split_ifs
    · exact hpm
    · exact addU64_le v 1
  | onTimeout v =>
    simp only [next, step]
    split_ifs <;> exact hpm
  | onProposalReceived v =>
    simp only [next, step]
    split_ifs <;> exact hpm
  | onRoundSync v =>
    simp only [next, step]
    split_ifs
    · exact hpm
    · exact hview

/-- All steps of a run ascend exactly when no certificate is for the last view. -/
theorem along_ascends_iff {inputs : List Input} (hviews : ∀ i ∈ inputs, i.2.view ≤ u64Max)
    (hpm : pm.currentView ≤ u64Max) :
    Along next Ascends pm inputs ↔ ∀ i ∈ inputs, i.2.BelowMax := by
  induction inputs generalizing pm with
  | nil => simp [Along]
  | cons i inputs ih =>
    have hview := hviews i (List.mem_cons_self ..)
    have hrest := ih (fun j hj => hviews j (List.mem_cons_of_mem _ hj))
      (currentView_next_le hview hpm)
    rw [Along, hrest, List.forall_mem_cons]
    have hstep : pm.Ascends i ↔ i.2.BelowMax :=
      ⟨belowMax_of_ascends hview hpm, ascends_of_belowMax hview⟩
    rw [hstep]

end Pacemaker

/-! ### The vote handler and the commit rule -/

/-- The views to which `on_vote_received` adds one: it does so before it looks the voter up. -/
def VoteVariant.additions (variant : VoteVariant) : List ℕ := [variant.signed.value.payload.view]

/-- The views to which `three_chain_commit` adds one. -/
def threeChainAdditions (newQc : QuorumCertificate) (state : HotStuffState) : List ℕ :=
  match state.getPending newQc.blockHash with
  | none => []
  | some b3 =>
    if b3.header.view ≠ newQc.view then []
    else
      match state.getPending b3.header.parentHash with
      | none => []
      | some b2 =>
        b2.header.view ::
          if addU64 b2.header.view 1 ≠ b3.header.view then []
          else
            match state.getPending b2.header.parentHash with
            | none => []
            | some b1 => [b1.header.view]

/-- Under a certified block that is pending, neither the parent nor, where the parent is of the
view before, the grandparent is of the last view. -/
def ChainBelowMax (newQc : QuorumCertificate) (state : HotStuffState) : Prop :=
  ∀ b3 ∈ state.getPending newQc.blockHash, b3.header.view = newQc.view →
    ∀ b2 ∈ state.getPending b3.header.parentHash, b2.header.view ≠ u64Max ∧
      (b2.header.view + 1 = b3.header.view →
        ∀ b1 ∈ state.getPending b2.header.parentHash, b1.header.view ≠ u64Max)

instance (newQc : QuorumCertificate) (state : HotStuffState) :
    Decidable (ChainBelowMax newQc state) :=
  inferInstanceAs (Decidable (∀ b3 ∈ state.getPending newQc.blockHash, _ →
    ∀ b2 ∈ state.getPending b3.header.parentHash, _))

theorem noneWraps_threeChainAdditions_iff {newQc : QuorumCertificate} {state : HotStuffState}
    (hviews : ∀ h, ∀ b ∈ state.getPending h, b.header.view ≤ u64Max) :
    NoneWraps (threeChainAdditions newQc state) ↔ ChainBelowMax newQc state := by
  unfold threeChainAdditions ChainBelowMax
  cases h3 : state.getPending newQc.blockHash with
  | none => simp [NoneWraps]
  | some b3 =>
    by_cases hview : b3.header.view = newQc.view
    · cases h2 : state.getPending b3.header.parentHash with
      | none => simp [NoneWraps, hview, h2]
      | some b2 =>
        have hle₂ := hviews _ b2 h2
        have hiff₂ := addU64_one_eq_iff hle₂
        cases h1 : state.getPending b2.header.parentHash with
        | none =>
          simp only [hview, h2, h1, NoneWraps, Option.mem_def, Option.some.injEq, forall_eq',
            ne_eq, not_true_eq_false, if_false, ite_self, List.mem_singleton, forall_eq, hiff₂]
          simp
        | some b1 =>
          have hiff₁ := addU64_one_eq_iff (hviews _ b1 h1)
          simp only [h2, h1, NoneWraps, Option.mem_def, Option.some.injEq, forall_eq',
            hview, ne_eq, not_true_eq_false, if_false, List.forall_mem_cons, hiff₂, forall_const]
          refine and_congr_right fun hne => ?_
          rw [addU64_one_of_ne hle₂ hne]
          by_cases hnext : b2.header.view + 1 = newQc.view <;> simp [hnext, hiff₁]
    · simp [NoneWraps, hview]

/-- Nothing wraps, and no view of the pacemaker goes back, exactly when no certificate, no vote
and no parent or grandparent that the commit rule looks at is of the last view. -/
theorem views_ascend_iff {pm : Pacemaker} {inputs : List Pacemaker.Input} {variant : VoteVariant}
    {newQc : QuorumCertificate} {state : HotStuffState} (hpm : pm.currentView ≤ u64Max)
    (hinputs : ∀ i ∈ inputs, i.2.view ≤ u64Max)
    (hvote : variant.signed.value.payload.view ≤ u64Max)
    (hblocks : ∀ h, ∀ b ∈ state.getPending h, b.header.view ≤ u64Max) :
    (Along Pacemaker.next Pacemaker.Ascends pm inputs ∧ NoneWraps variant.additions ∧
        NoneWraps (threeChainAdditions newQc state)) ↔
      (∀ i ∈ inputs, i.2.BelowMax) ∧ variant.signed.value.payload.view ≠ u64Max ∧
        ChainBelowMax newQc state := by
  have hadded : NoneWraps variant.additions ↔ variant.signed.value.payload.view ≠ u64Max := by
    simp only [NoneWraps, VoteVariant.additions, List.forall_mem_singleton]
    exact addU64_one_eq_iff hvote
  rw [Pacemaker.along_ascends_iff hinputs hpm, hadded, noneWraps_threeChainAdditions_iff hblocks]

namespace Sample

/-- A vote of validator 1 for a block of the view. -/
def voteIn (view : ℕ) : VoteVariant := ⟨⟨⟨⟨view, 7⟩, 1, 0⟩, 1⟩, 3⟩

/-- Genesis with the blocks of views 1 and 2. -/
def twoPending : HotStuffState :=
  ((HotStuffState.new primitives validators genesis).insertPending primitives
    d₁.block).insertPending primitives d₂.block

theorem twoPending_views : ∀ h, ∀ b ∈ twoPending.getPending h, b.header.view ≤ u64Max := by
  intro h b hb
  rcases HotStuffState.getPending_of_insertPending hb with ⟨-, rfl⟩ | hb
  · decide
  rcases HotStuffState.getPending_of_insertPending hb with ⟨-, rfl⟩ | hb
  · decide
  · obtain ⟨-, rfl⟩ := straightPool.getPending_new hb
    decide

/-- The pacemaker is told of a round sync and of a later certificate. -/
def certified (view : ℕ) : List Pacemaker.Input :=
  [(fun _ => false, .onRoundSync 5), (fun _ => false, .onQc view)]

theorem certified_ascends :
    Along Pacemaker.next Pacemaker.Ascends .new (certified 7) ∧
      NoneWraps (voteIn 7).additions ∧
        NoneWraps (threeChainAdditions (certify d₂.block [0, 1, 3]) twoPending) :=
  (views_ascend_iff (by decide) (by decide) (by decide) twoPending_views).mpr
    ⟨by decide, by decide, by decide⟩

/-- A certificate for the last view takes the pacemaker from view 5 back to view 0. -/
theorem certified_max_goes_back :
    ¬ Along Pacemaker.next Pacemaker.Ascends .new (certified u64Max) ∧
      (run Pacemaker.next .new (certified u64Max)).currentView = 0 ∧
        ¬ NoneWraps (voteIn u64Max).additions := by
  refine ⟨fun h => ?_, by decide, by decide⟩
  have hview := h.2.1.currentView
  exact absurd hview (by decide)

end Sample

end Boule
