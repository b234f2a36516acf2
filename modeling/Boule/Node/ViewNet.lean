import Boule.Node.LiveKeys
import Boule.Node.ViewSync

/-! The validators of a set as a network: timers fire, timeout votes travel in any order, and the
cores of the validators come up with certificates. -/
namespace Boule
open ConsensusNode

/-- The view of the certificate that the input tells the pacemaker of. -/
def TellerInput.qcView? : TellerInput → Option ℕ
  | .pacemaker (.onQc view) => some view
  | _ => none

/-- A timer that fires, which is not for the network to deliver. -/
def TellerInput.ticks : TellerInput → Bool
  | .pacemaker (.onTimeout _) => true
  | _ => false

/-- The key and the view of the timeout vote that the input is. -/
def TellerInput.ballot? : TellerInput → Option (NodeId × ℕ)
  | .timeoutVote signed _ => some (signed.signer, signed.payload.view)
  | _ => none

/-- The keys and the views of the timeout votes among the inputs. -/
def timeoutVotes (inputs : List TellerInput) : List (NodeId × ℕ) :=
  inputs.filterMap TellerInput.ballot?

/-- The views of the certificates among the inputs. -/
def toldViews (inputs : List TellerInput) : List ℕ := inputs.filterMap TellerInput.qcView?

/-- What a party with these inputs has heard from the members of the set. -/
def viewLog (vs : ValidatorSet) (keyOf : ValidatorId → NodeId) (inputs : List TellerInput) :
    ViewLog ValidatorId where
  voters := fun u => vs.members.toFinset.filter fun id => (keyOf id, u) ∈ timeoutVotes inputs
  told := toldViews inputs

/-- What the environment of a teller comes up with: votes, certificates and proposals of the core,
and commits that change no keys. The other events of the pacemaker are for timers and buckets. -/
def TimeoutTeller.Allowed (P : Primitives) (R : HistoryPrimitives) (chainId : ChainId)
    (minVEffDelay capacity : ℕ) (s : TimeoutTeller) : TellerInput → Prop
  | .timeoutVote _ _ => True
  | .pacemaker (.onQc view) => view + 1 < 2 ^ 64
  | .pacemaker (.onProposalReceived _) => True
  | .pacemaker (.onTimeout _) => True
  | .pacemaker (.onTimeoutCert _) => False
  | .pacemaker (.onRoundSync _) => False
  | .safety _ _ => True
  | .commit block => (s.step P R chainId minVEffDelay capacity
      (.commit block)).node.validatorKeyHistory = s.node.validatorKeyHistory
  | .restore _ => False

/-- A vote throws out no bucket that the teller may still need. -/
def TimeoutTeller.Roomy (capacity : ℕ) (s : TimeoutTeller) (input : TellerInput) : Prop :=
  ∀ v ∈ victimView capacity s.timeoutBuckets, s.node.currentView ≤ v → ¬ s.Ousts capacity v input

section
variable {vs : ValidatorSet} {keyOf : ValidatorId → NodeId} {inputs : List TellerInput}
  {input : TellerInput} {u : ℕ} {id : ValidatorId}

theorem mem_voters : id ∈ (viewLog vs keyOf inputs).voters u ↔
    id ∈ vs.members ∧ (keyOf id, u) ∈ timeoutVotes inputs := by
  unfold viewLog
  rw [Finset.mem_filter, List.mem_toFinset]

variable (vs keyOf inputs) in
theorem viewLog_nil : viewLog vs keyOf [] = .empty := by
  unfold viewLog ViewLog.empty
  simp [timeoutVotes, toldViews]

theorem mem_filterMap_cons {α β : Type} {f : α → Option β} {a : α} {l : List α} {b : β} :
    b ∈ (a :: l).filterMap f ↔ f a = some b ∨ b ∈ l.filterMap f := by
  rw [List.mem_filterMap, List.mem_filterMap, List.exists_mem_cons_iff]

theorem mem_voters_cons : id ∈ (viewLog vs keyOf (input :: inputs)).voters u ↔
    id ∈ (viewLog vs keyOf inputs).voters u ∨
      id ∈ vs.members ∧ input.ballot? = some (keyOf id, u) := by
  rw [mem_voters, mem_voters, timeoutVotes, mem_filterMap_cons, and_or_left, or_comm]
  rfl

theorem mem_told_cons : u ∈ (viewLog vs keyOf (input :: inputs)).told ↔
    input.qcView? = some u ∨ u ∈ (viewLog vs keyOf inputs).told :=
  mem_filterMap_cons

variable (vs keyOf) in
theorem hears_viewLog (signed : Signed TimeoutVote) (trusted : Bool) (inputs : List TellerInput) :
    Hears vs keyOf signed (viewLog vs keyOf inputs)
      (viewLog vs keyOf (.timeoutVote signed trusted :: inputs)) where
  told := rfl
  voters := fun u id => by
    rw [mem_voters_cons, TellerInput.ballot?, Option.some_inj, Prod.mk.injEq]
    exact or_congr_right (and_congr_right fun _ => and_congr_left fun _ => eq_comm)

/-- An input that is no vote adds no voter. -/
theorem voters_of_no_vote (h : ∀ signed trusted, input ≠ .timeoutVote signed trusted) (u : ℕ) :
    (viewLog vs keyOf (input :: inputs)).voters u = (viewLog vs keyOf inputs).voters u := by
  ext id
  rw [mem_voters_cons]
  refine or_iff_left ?_
  rintro ⟨-, hballot⟩
  cases input with
  | timeoutVote signed trusted => exact h signed trusted rfl
  | _ => cases hballot

theorem viewLog_le_cons (input : TellerInput) (inputs : List TellerInput) :
    viewLog vs keyOf inputs ≤ viewLog vs keyOf (input :: inputs) :=
  ⟨fun _ _ hid => mem_voters_cons.mpr (.inl hid), fun _ hu => mem_told_cons.mpr (.inr hu)⟩

end

namespace TimeoutTeller
section
variable {P : Primitives} {R : HistoryPrimitives} {chainId : ChainId} {minVEffDelay capacity : ℕ}
  {vs : ValidatorSet} {keyOf : ValidatorId → NodeId} {s : TimeoutTeller} {inputs : List TellerInput}
  {input : TellerInput}

theorem Roomy.not_ousts (h : s.Roomy capacity input) {v : ℕ} (hv : s.node.currentView ≤ v) :
    ¬ s.Ousts capacity v input := by
  intro hout
  refine h v ?_ hv hout
  cases input with
  | timeoutVote signed trusted => exact hout.2.2
  | _ => exact hout.elim

/-- What an input other than a vote does to a teller. -/
theorem quiet_step (h : s.Allowed P R chainId minVEffDelay capacity input)
    (hv : ∀ signed trusted, input ≠ .timeoutVote signed trusted) :
    (∀ m, input ≠ .restore m) ∧
    (s.step P R chainId minVEffDelay capacity input).timeoutBuckets = s.timeoutBuckets ∧
    (s.step P R chainId minVEffDelay capacity input).counted = s.counted ∧
    (s.step P R chainId minVEffDelay capacity input).node.validatorKeyHistory =
      s.node.validatorKeyHistory ∧
    (s.step P R chainId minVEffDelay capacity input).node.currentView =
      (input.qcView?.elim s.node.currentView fun w => max s.node.currentView (w + 1)) ∧
    ∀ w, input.qcView? = some w → w + 1 < 2 ^ 64 := by
  cases input with
  | timeoutVote signed trusted => exact absurd rfl (hv signed trusted)
  | pacemaker event =>
    refine ⟨by simp, rfl, rfl, rfl, ?_, ?_⟩
    · cases event with
      | onQc w => exact currentView_onQc s.node h
      | onTimeoutCert w => exact h.elim
      | onRoundSync w => exact h.elim
      | onTimeout w =>
        show (s.node.pacemaker.step s.node.leads (.onTimeout w)).1.currentView = _
        simp only [Pacemaker.step]
        split_ifs <;> rfl
      | onProposalReceived w =>
        show (s.node.pacemaker.step s.node.leads (.onProposalReceived w)).1.currentView = _
        simp only [Pacemaker.step]
        split_ifs <;> rfl
    · intro w hw
      cases event with
      | onQc w' =>
        obtain rfl := Option.some.inj hw
        exact h
      | _ => cases hw
  | safety order event => exact ⟨by simp, rfl, rfl, rfl, rfl, by simp [TellerInput.qcView?]⟩
  | commit block =>
    have hidle : (s.step P R chainId minVEffDelay capacity (.commit block)).timeoutBuckets =
        s.timeoutBuckets ∧
        (s.step P R chainId minVEffDelay capacity (.commit block)).counted = s.counted := by
      simp only [step]
      split <;> exact ⟨rfl, rfl⟩
    have hcounting : (s.step P R chainId minVEffDelay capacity (.commit block)).node.counting =
        s.node.counting := counting_step P R chainId minVEffDelay capacity s (by simp) (by simp)
      (by simp)
    exact ⟨by simp, hidle.1, hidle.2, h, congrArg (fun c => c.2.currentView) hcounting,
      by simp [TellerInput.qcView?]⟩
  | restore m => exact h.elim

/-- The votes in the buckets of a teller are among the votes it was handed. -/
theorem Minuted.step (h : s.Minuted vs keyOf (viewLog vs keyOf inputs))
    (hallowed : s.Allowed P R chainId minVEffDelay capacity input) :
    (s.step P R chainId minVEffDelay capacity input).Minuted vs keyOf
      (viewLog vs keyOf (input :: inputs)) := by
  by_cases hvote : ∃ signed trusted, input = .timeoutVote signed trusted
  · obtain ⟨signed, trusted, rfl⟩ := hvote
    exact h.vote (hears_viewLog vs keyOf signed trusted inputs)
  · push Not at hvote
    obtain ⟨hr, hbuckets, hcounted, hkeys, -, -⟩ := quiet_step hallowed hvote
    exact h.idle (viewLog_le_cons input inputs) hr hbuckets hcounted hkeys

/-- The view after an input is one that the inputs so far take a party to. -/
theorem Minuted.follows_step (h : s.Minuted vs keyOf (viewLog vs keyOf inputs))
    (hallowed : s.Allowed P R chainId minVEffDelay capacity input)
    (hwrap : ∀ u, vs.viewRule.ends ((viewLog vs keyOf (input :: inputs)).voters u) →
      u + 1 < 2 ^ 64) {w : ℕ}
    (hw : w ≤ (s.step P R chainId minVEffDelay capacity input).node.currentView) :
    w ≤ s.node.currentView ∨ (viewLog vs keyOf (input :: inputs)).Pushes vs.viewRule w := by
  by_cases hvote : ∃ signed trusted, input = .timeoutVote signed trusted
  · obtain ⟨signed, trusted, rfl⟩ := hvote
    exact h.follows (hears_viewLog vs keyOf signed trusted inputs) (hwrap _) hw
  · push Not at hvote
    obtain ⟨-, -, -, -, hview, -⟩ := quiet_step hallowed hvote
    rw [hview] at hw
    cases hqc : input.qcView? with
    | none =>
      rw [hqc] at hw
      exact .inl hw
    | some v =>
      rw [hqc] at hw
      rcases le_max_iff.mp hw with hw | hw
      · exact .inl hw
      · exact .inr (.inl ⟨v, hw, .inl (mem_told_cons.mpr (.inl hqc))⟩)

theorem Minuted.mono_step (h : s.Minuted vs keyOf (viewLog vs keyOf inputs))
    (hallowed : s.Allowed P R chainId minVEffDelay capacity input)
    (hwrap : ∀ u, vs.viewRule.ends ((viewLog vs keyOf (input :: inputs)).voters u) →
      u + 1 < 2 ^ 64) :
    s.node.currentView ≤ (s.step P R chainId minVEffDelay capacity input).node.currentView := by
  by_cases hvote : ∃ signed trusted, input = .timeoutVote signed trusted
  · obtain ⟨signed, trusted, rfl⟩ := hvote
    cases hc : s.node.countsFor s.timeoutBuckets signed with
    | none => rw [(idle_of_uncounted P R chainId minVEffDelay capacity trusted hc).1]
    | some id =>
      have hv := (countsFor_eq_some hc).2.2.1
      have hle := h.addedWeight_le (hears_viewLog vs keyOf signed trusted inputs) hc
      have hview := currentView_counted capacity trusted hc
        fun hq => hwrap _ ((h.set ▸ hq).trans hle)
      refine le_of_le_of_eq ?_ hview.symm
      split_ifs <;> omega
  · push Not at hvote
    obtain ⟨-, -, -, -, hview, -⟩ := quiet_step hallowed hvote
    rw [hview]
    cases input.qcView? with
    | none => exact le_rfl
    | some w => exact le_max_left ..

/-- A teller with room for its buckets is in the view that its inputs take a party to. -/
theorem Settled.step (h : s.Settled vs keyOf (viewLog vs keyOf inputs))
    (hallowed : s.Allowed P R chainId minVEffDelay capacity input)
    (hwrap : ∀ u, vs.viewRule.ends ((viewLog vs keyOf (input :: inputs)).voters u) →
      u + 1 < 2 ^ 64) (hroom : s.Roomy capacity input) :
    (s.step P R chainId minVEffDelay capacity input).Settled vs keyOf
      (viewLog vs keyOf (input :: inputs)) := by
  by_cases hvote : ∃ signed trusted, input = .timeoutVote signed trusted
  · obtain ⟨signed, trusted, rfl⟩ := hvote
    exact h.vote (hears_viewLog vs keyOf signed trusted inputs) (hwrap _)
      fun v hv => hroom.not_ousts hv
  · push Not at hvote
    obtain ⟨hr, hbuckets, hcounted, hkeys, hview, -⟩ := quiet_step hallowed hvote
    have hvoters : ∀ u, (viewLog vs keyOf (input :: inputs)).voters u =
        (viewLog vs keyOf inputs).voters u := voters_of_no_vote hvote
    refine h.idle (viewLog_le_cons input inputs) hr hbuckets hcounted hkeys hvoters ?_ ?_
    · rw [hview]
      cases input.qcView? with
      | none => exact le_rfl
      | some w => exact le_max_left ..
    · rw [hview]
      cases hqc : input.qcView? with
      | none =>
        refine h.places.stay (viewLog_le_cons input inputs) ?_ fun u _ => hvoters u
        exact List.filterMap_cons_none hqc
      | some w =>
        refine h.places.tell hvoters fun x => ?_
        rw [mem_told_cons, hqc, Option.some_inj, eq_comm]

end
end TimeoutTeller

/-! ### One validator -/

/-- A node that starts from an empty store knows the genesis validators, each under its id. -/
theorem ConsensusNode.knowsKeys_recover {P : Primitives} {cfg : NodeConfig} {n : ConsensusNode}
    (h : recover P cfg .empty = some n) :
    n.KnowsKeys cfg.validatorSet id ∧ n.currentView = 0 := by
  have hr := recovered_of_recover h
  have hhistory : ValidatorSetHistory.fromGenesis cfg.validatorSet = n.validatorHistory :=
    Option.some.inj hr.history
  have hkeys : ValidatorKeyHistory.fromSetHistory n.validatorHistory = n.validatorKeyHistory :=
    Option.some.inj hr.keys
  obtain ⟨hset, hview, -⟩ := recover_starts h
  refine ⟨⟨?_, fun member hmem key => ?_⟩, hview⟩
  · rw [hset, ← hhistory]
    rfl
  · have hindex := index_genesis cfg key
    rw [← hkeys, ← hhistory]
    refine (congrArg (· = some member) hindex).to_iff.trans ?_
    by_cases hkey : key ∈ cfg.validatorSet.members
    · rw [if_pos hkey, Option.some_inj]
      rfl
    · rw [if_neg hkey]
      refine iff_of_false (by simp) fun he => hkey ?_
      exact (show key = member from he) ▸ hmem

/-- A vote that can end its view is not for the last view there is. -/
def TellerInput.Fits : TellerInput → Prop
  | .timeoutVote signed _ => signed.payload.view + 1 < 2 ^ 64
  | _ => True

instance : DecidablePred TellerInput.Fits
  | .timeoutVote signed _ => inferInstanceAs (Decidable (signed.payload.view + 1 < 2 ^ 64))
  | .pacemaker _ | .safety .. | .commit _ | .restore _ => inferInstanceAs (Decidable True)

namespace TimeoutTeller
section
variable (P : Primitives) (R : HistoryPrimitives) (chainId : ChainId) (minVEffDelay capacity : ℕ)

instance (s : TimeoutTeller) : DecidablePred (s.Allowed P R chainId minVEffDelay capacity)
  | .pacemaker (.onQc view) => inferInstanceAs (Decidable (view + 1 < 2 ^ 64))
  | .commit _ => inferInstanceAs (Decidable (_ = s.node.validatorKeyHistory))
  | .timeoutVote .. | .pacemaker (.onProposalReceived _) | .pacemaker (.onTimeout _)
  | .safety .. => inferInstanceAs (Decidable True)
  | .pacemaker (.onTimeoutCert _) | .pacemaker (.onRoundSync _) | .restore _ =>
    inferInstanceAs (Decidable False)

instance (s : TimeoutTeller) (input : TellerInput) : Decidable (s.Roomy capacity input) :=
  inferInstanceAs (Decidable (∀ v ∈ victimView capacity s.timeoutBuckets,
    s.node.currentView ≤ v → ¬ s.Ousts capacity v input))

/-- An input that finds room among the buckets and is not about the last view. -/
structure Undisturbed (s : TimeoutTeller) (input : TellerInput) : Prop where
  allowed : s.Allowed P R chainId minVEffDelay capacity input
  room : s.Roomy capacity input
  fits : input.Fits

instance (s : TimeoutTeller) (input : TellerInput) :
    Decidable (s.Undisturbed P R chainId minVEffDelay capacity input) :=
  decidable_of_iff (s.Allowed P R chainId minVEffDelay capacity input ∧
    s.Roomy capacity input ∧ input.Fits) ⟨fun h => ⟨h.1, h.2.1, h.2.2⟩, fun h => ⟨h.1, h.2, h.3⟩⟩

variable {P R chainId minVEffDelay capacity} {vs : ValidatorSet} {keyOf : ValidatorId → NodeId}

theorem countedIn_start (storage : Storage) (n : ConsensusNode) (v : ℕ) :
    (start storage n).countedIn v = [] := ite_self _

theorem minuted_start {n : ConsensusNode} (hn : n.KnowsKeys vs keyOf) (storage : Storage)
    (l : ViewLog ValidatorId) : (start storage n).Minuted vs keyOf l where
  toWeighed := hn.set ▸ (short_start storage n 0).toWeighed
  keys := hn.keys
  signers := by simp [start]
  heard := by simp [countedIn_start]
  once := by simp [countedIn_start]

theorem settled_start {n : ConsensusNode} (hn : n.KnowsKeys vs keyOf) (hview : n.currentView = 0)
    (storage : Storage) : (start storage n).Settled vs keyOf (viewLog vs keyOf []) := by
  refine ⟨minuted_start hn storage _, ?_, ?_⟩
  · intro v _ id hid
    rw [viewLog_nil] at hid
    cases hid
  · rw [viewLog_nil]
    show ViewLog.empty.Places vs.viewRule n.currentView
    rw [hview]
    exact ViewLog.places_empty

/-- A quorum is heard for a view from votes for it. -/
theorem exists_ballot_of_ends {inputs : List TellerInput} {u : ℕ}
    (h : vs.viewRule.ends ((viewLog vs keyOf inputs).voters u)) :
    ∃ id ∈ vs.members, (keyOf id, u) ∈ timeoutVotes inputs := by
  obtain ⟨id, hid⟩ : ((viewLog vs keyOf inputs).voters u).Nonempty := by
    rw [Finset.nonempty_iff_ne_empty]
    intro hempty
    rw [hempty] at h
    exact vs.viewRule.not_begins_empty (vs.viewRule.begins_of_ends h)
  exact ⟨id, mem_voters.mp hid⟩

theorem settled_run {s : TimeoutTeller} {inputs before : List TellerInput}
    (h : Along (step P R chainId minVEffDelay capacity)
      (fun s input => s.Undisturbed P R chainId minVEffDelay capacity input) s inputs)
    (hbefore : ∀ input ∈ before, input.Fits)
    (hs : s.Settled vs keyOf (viewLog vs keyOf before)) :
    (run (step P R chainId minVEffDelay capacity) s inputs).Settled vs keyOf
      (viewLog vs keyOf (inputs.reverse ++ before)) := by
  induction inputs generalizing s before with
  | nil => exact hs
  | cons input inputs ih =>
    have hfits : ∀ i ∈ input :: before, i.Fits :=
      List.forall_mem_cons.mpr ⟨h.1.fits, hbefore⟩
    rw [List.reverse_cons, List.append_assoc]
    refine ih h.2 hfits (hs.step h.1.allowed ?_ h.1.room)
    intro u hends
    obtain ⟨id, -, hballot⟩ := exists_ballot_of_ends hends
    obtain ⟨i, hi, hview⟩ := List.mem_filterMap.mp hballot
    have hi := hfits i hi
    cases i with
    | timeoutVote signed trusted =>
      obtain ⟨-, rfl⟩ := Prod.mk.inj (Option.some.inj hview)
      exact hi
    | _ => cases hview

end
end TimeoutTeller

section
variable (P : Primitives) (R : HistoryPrimitives) (chainId : ChainId) (minVEffDelay capacity : ℕ)
  {vs : ValidatorSet} {keyOf : ValidatorId → NodeId}

/-- The weight of the members whose timeout votes for the view are among the inputs. -/
def timeoutWeight (vs : ValidatorSet) (keyOf : ValidatorId → NodeId) (inputs : List TellerInput)
    (u : ℕ) : ℕ :=
  vs.weightIn (vs.members.toFinset.filter fun id => (keyOf id, u) ∈ timeoutVotes inputs)

/-- Two validators that were handed the same timeout votes and certificates are in the same view,
whatever the order and the repeats: the one after the highest view that has a certificate or a
quorum of timeout votes, unless more than a third of the weight has timed out in a later one. -/
theorem same_view (storage storage' : Storage) {n n' : ConsensusNode} (hn : n.KnowsKeys vs keyOf)
    (hn' : n'.KnowsKeys vs keyOf) (hview : n.currentView = 0) (hview' : n'.currentView = 0)
    {inputs inputs' : List TellerInput}
    (h : Along (TimeoutTeller.step P R chainId minVEffDelay capacity)
      (fun s input => s.Undisturbed P R chainId minVEffDelay capacity input) (.start storage n)
      inputs)
    (h' : Along (TimeoutTeller.step P R chainId minVEffDelay capacity)
      (fun s input => s.Undisturbed P R chainId minVEffDelay capacity input) (.start storage' n')
      inputs')
    (hvotes : ∀ ballot, ballot ∈ timeoutVotes inputs ↔ ballot ∈ timeoutVotes inputs')
    (hcerts : ∀ u, u ∈ toldViews inputs ↔ u ∈ toldViews inputs') :
    (run (TimeoutTeller.step P R chainId minVEffDelay capacity) (.start storage n)
        inputs).node.currentView =
      (run (TimeoutTeller.step P R chainId minVEffDelay capacity) (.start storage' n')
        inputs').node.currentView ∧
    ∀ w, w ≤ (run (TimeoutTeller.step P R chainId minVEffDelay capacity) (.start storage n)
        inputs).node.currentView ↔ w = 0 ∨
      (∃ u, w ≤ u + 1 ∧ (u ∈ toldViews inputs ∨
        2 * vs.totalWeight < 3 * timeoutWeight vs keyOf inputs u)) ∨
      ∃ u, w ≤ u ∧ vs.totalWeight < 3 * timeoutWeight vs keyOf inputs u := by
  have hplaces : ∀ {storage : Storage} {n : ConsensusNode} {inputs : List TellerInput},
      n.KnowsKeys vs keyOf → n.currentView = 0 →
      Along (TimeoutTeller.step P R chainId minVEffDelay capacity)
        (fun s input => s.Undisturbed P R chainId minVEffDelay capacity input) (.start storage n)
        inputs →
      (viewLog vs keyOf inputs).Places vs.viewRule
        (run (TimeoutTeller.step P R chainId minVEffDelay capacity) (.start storage n)
          inputs).node.currentView := by
    intro storage n inputs hn hview h
    have hend := (TimeoutTeller.settled_run h (by simp)
      (TimeoutTeller.settled_start hn hview storage)).places
    rw [List.append_nil] at hend
    refine hend.congr (fun u => ?_) fun u => ?_
    · ext id
      simp only [mem_voters, timeoutVotes, List.mem_filterMap, List.mem_reverse]
    · simp only [viewLog, toldViews, List.mem_filterMap, List.mem_reverse]
  have hfirst := hplaces hn hview h
  refine ⟨hfirst.unique ((hplaces hn' hview' h').congr (fun u => ?_) hcerts), fun w => ?_⟩
  · ext id
    simp only [mem_voters, hvotes]
  · rw [hfirst w]
    unfold ViewLog.Pushes
    simp only [← vs.quorumWeightThreshold_le_iff, ← vs.honestyWeightThreshold_le_iff]
    exact Iff.rfl

end

namespace Sample

/-- The timeouts of three validators in view 20 take a node to view 21. -/
def oneByOne : List TellerInput := [.pacemaker (.onQc 0), timedOut 1, timedOut 2, timedOut 3]

def shuffled : List TellerInput :=
  [timedOut 3, timedOut 3, timedOut 1, .pacemaker (.onQc 0), timedOut 1, timedOut 2]

theorem shuffled_same_view : ∃ n ∈ recover timed config .empty,
    (run tell (.start .empty n) oneByOne).node.currentView = 21 ∧
      (run tell (.start .empty n) oneByOne).node.currentView =
        (run tell (.start .empty n) shuffled).node.currentView := by
  obtain ⟨n, hn, hview, h, h'⟩ : ∃ n ∈ recover timed config .empty,
      (run tell (.start .empty n) oneByOne).node.currentView = 21 ∧
        Along tell (fun s input => s.Undisturbed timed allChanges chainId config.minVEffDelay 8
          input) (.start .empty n) oneByOne ∧
        Along tell (fun s input => s.Undisturbed timed allChanges chainId config.minVEffDelay 8
          input) (.start .empty n) shuffled := by decide +kernel
  obtain ⟨hknows, hzero⟩ := ConsensusNode.knowsKeys_recover hn
  refine ⟨n, hn, hview, (same_view timed allChanges chainId config.minVEffDelay 8 .empty .empty
    hknows hknows hzero hzero h h' (fun ballot => ?_) fun u => ?_).1⟩
  · have hsame : timeoutVotes shuffled ⊆ timeoutVotes oneByOne ∧
        timeoutVotes oneByOne ⊆ timeoutVotes shuffled := by decide
    exact ⟨fun hb => hsame.2 hb, fun hb => hsame.1 hb⟩
  · exact Iff.rfl

end Sample

/-! ### The network -/

/-- `stored` is the vote that `send_timeout` has persisted, `inputs` all that the teller of a
validator was handed so far, the last input first. -/
structure ViewNet where
  tellers : ValidatorId → TimeoutTeller
  stored : ValidatorId → Option TimeoutVote
  sent : List (Signed TimeoutVote)
  inputs : ValidatorId → List TellerInput

inductive ViewInput where
  | timer (id : ValidatorId) (view : ℕ)
  | tell (id : ValidatorId) (input : TellerInput)

namespace ViewNet

def start (storages : ValidatorId → Storage) (nodes : ValidatorId → ConsensusNode) : ViewNet where
  tellers := fun id => .start (storages id) (nodes id)
  stored := fun _ => none
  sent := []
  inputs := fun _ => []

section
variable (P : Primitives) (R : HistoryPrimitives) (chainId : ChainId) (minVEffDelay capacity : ℕ)
  (keyOf : ValidatorId → NodeId) (sign : NodeId → TimeoutVote → ℕ)

def tell (net : ViewNet) (id : ValidatorId) (input : TellerInput) : ViewNet :=
  { net with
    tellers := Function.update net.tellers id
      ((net.tellers id).step P R chainId minVEffDelay capacity input)
    inputs := Function.update net.inputs id (input :: net.inputs id) }

/-- The vote that `send_timeout` signs, stores and broadcasts. -/
def ballot (net : ViewNet) (id : ValidatorId) (view : ℕ) : Signed TimeoutVote :=
  let payload := (net.tellers id).node.timeoutPayload (net.stored id) view
  ⟨payload, keyOf id, sign (keyOf id) payload⟩

def cast (net : ViewNet) (id : ValidatorId) (signed : Signed TimeoutVote) : ViewNet :=
  { net with
    stored := Function.update net.stored id (some signed.payload)
    sent := signed :: net.sent }

/-- A timer that makes its validator time out has its own teller count the vote as well. -/
def step (net : ViewNet) : ViewInput → ViewNet
  | .tell id input => net.tell P R chainId minVEffDelay capacity id input
  | .timer id view =>
    let ticked := net.tell P R chainId minVEffDelay capacity id (.pacemaker (.onTimeout view))
    if (net.tellers id).node.timesOut view then
      let signed := net.ballot keyOf sign id view
      (ticked.cast id signed).tell P R chainId minVEffDelay capacity id (.timeoutVote signed true)
    else ticked

end

/-- The vote is no forgery: if it is under the key of an honest member, that member has cast it. -/
def Genuine (vs : ValidatorSet) (byz : Finset ValidatorId) (keyOf : ValidatorId → NodeId)
    (net : ViewNet) : TellerInput → Prop
  | .timeoutVote signed _ => ∀ r ∈ vs.members, r ∉ byz → signed.signer = keyOf r →
    ∃ cast ∈ net.sent, cast.signer = signed.signer ∧ cast.payload = signed.payload
  | _ => True

instance (vs : ValidatorSet) (byz : Finset ValidatorId) (keyOf : ValidatorId → NodeId)
    (net : ViewNet) : DecidablePred (net.Genuine vs byz keyOf)
  | .timeoutVote .. => inferInstanceAs (Decidable (∀ r ∈ vs.members, r ∉ byz → _ →
      ∃ cast ∈ net.sent, _ ∧ _))
  | .pacemaker _ | .safety .. | .commit _ | .restore _ => inferInstanceAs (Decidable True)

section
variable (P : Primitives) (R : HistoryPrimitives) (chainId : ChainId) (minVEffDelay capacity : ℕ)
  (vs : ValidatorSet) (byz : Finset ValidatorId) (keyOf : ValidatorId → NodeId)
  (sign : NodeId → TimeoutVote → ℕ)

/-- What the network may do: honest members have timers, and nobody forges their votes. -/
def Admits (net : ViewNet) : ViewInput → Prop
  | .timer id view => id ∈ vs.members ∧ id ∉ byz ∧ view + 1 < 2 ^ 64
  | .tell id input => input.ticks = false ∧
    (net.tellers id).Allowed P R chainId minVEffDelay capacity input ∧
      net.Genuine vs byz keyOf input

instance (net : ViewNet) :
    DecidablePred (net.Admits P R chainId minVEffDelay capacity vs byz keyOf)
  | .timer _ _ => inferInstanceAs (Decidable (_ ∧ _ ∧ _))
  | .tell _ _ => inferInstanceAs (Decidable (_ ∧ _ ∧ _))

/-- The honest members. -/
def honest : Set ValidatorId := {id | id ∈ vs.members ∧ id ∉ byz}

def views (net : ViewNet) (id : ValidatorId) : ℕ := (net.tellers id).node.currentView

def logs (net : ViewNet) (id : ValidatorId) : ViewLog ValidatorId :=
  viewLog vs keyOf (net.inputs id)

/-- The honest members that have cast a timeout vote for the view. -/
def casters (net : ViewNet) (u : ℕ) : Finset ValidatorId :=
  vs.members.toFinset.filter fun id => id ∉ byz ∧
    ∃ signed ∈ net.sent, signed.signer = keyOf id ∧ signed.payload.view = u

/-- What is known of a network in which no honest vote is forged. -/
structure Sound (net : ViewNet) : Prop where
  minuted : ∀ id ∈ honest vs byz, (net.tellers id).Minuted vs keyOf (net.logs vs keyOf id)
  sent : ∀ signed ∈ net.sent, ∀ r ∈ honest vs byz, signed.signer = keyOf r →
    signed.payload.view ≤ net.views r ∧ signed.payload.view + 1 < 2 ^ 64
  heard : ∀ id ∈ honest vs byz, ∀ u, ∀ r ∈ (net.logs vs keyOf id).voters u, r ∈ honest vs byz →
    r ∈ net.casters vs byz keyOf u
  backed : ViewSync.Backed vs.viewRule (honest vs byz) net.views (net.logs vs keyOf)

variable {P R chainId minVEffDelay capacity vs byz keyOf sign} {net : ViewNet}

/-- More than a third of the weight is not all Byzantine. -/
theorem exists_honest (hbyz : 3 * vs.weightIn byz ≤ vs.totalWeight) (A : Finset ValidatorId)
    (h : vs.viewRule.begins A) : ∃ r ∈ A, r ∈ honest vs byz := by
  by_contra hnone
  push Not at hnone
  have hmembers : vs.weightIn A = vs.weightIn (A.filter (· ∈ vs.members)) := by
    refine (Finset.sum_filter_of_ne fun id _ hne => ?_).symm
    by_contra hstranger
    rw [ValidatorSet.weightOf, ValidatorSet.weightFor_of_notMem hstranger] at hne
    exact hne rfl
  have hsub : A.filter (· ∈ vs.members) ⊆ byz := by
    intro id hid
    obtain ⟨hA, hmem⟩ := Finset.mem_filter.mp hid
    by_contra hnot
    exact hnone id hA ⟨hmem, hnot⟩
  have hle : vs.weightIn A ≤ vs.weightIn byz := hmembers ▸ Quorum.weight_mono _ hsub
  have hlt := (vs.honestyWeightThreshold_le_iff _).mp h
  omega

theorem mem_casters {u : ℕ} {id : ValidatorId} : id ∈ net.casters vs byz keyOf u ↔
    id ∈ honest vs byz ∧ ∃ signed ∈ net.sent, signed.signer = keyOf id ∧
      signed.payload.view = u := by
  unfold casters honest
  simp only [Finset.mem_filter, List.mem_toFinset, Set.mem_ofPred_eq, and_assoc]

theorem casters_mono {net' : ViewNet} (h : net.sent ⊆ net'.sent) (u : ℕ) :
    net.casters vs byz keyOf u ⊆ net'.casters vs byz keyOf u := by
  intro id hid
  obtain ⟨hh, signed, hmem, hcast⟩ := mem_casters.mp hid
  exact mem_casters.mpr ⟨hh, signed, h hmem, hcast⟩

/-- A vote by an honest member goes on the record before anybody hears it. -/
theorem Sound.cast (h : net.Sound vs byz keyOf) {id : ValidatorId} {signed : Signed TimeoutVote}
    (hsigned : ∀ r ∈ honest vs byz, signed.signer = keyOf r →
      signed.payload.view ≤ net.views r ∧ signed.payload.view + 1 < 2 ^ 64) :
    (net.cast id signed).Sound vs byz keyOf where
  minuted := h.minuted
  sent := List.forall_mem_cons.mpr ⟨hsigned, h.sent⟩
  heard := fun i hi u r hr hrh =>
    casters_mono (List.subset_cons_self ..) u (h.heard i hi u r hr hrh)
  backed := h.backed

theorem logs_tell (id i : ValidatorId) (input : TellerInput) :
    (net.tell P R chainId minVEffDelay capacity id input).logs vs keyOf i =
      if i = id then viewLog vs keyOf (input :: net.inputs id) else net.logs vs keyOf i := by
  unfold logs tell
  simp only [Function.update_apply]
  split_ifs with hi
  · rfl
  · rfl

theorem tellers_tell (id i : ValidatorId) (input : TellerInput) :
    (net.tell P R chainId minVEffDelay capacity id input).tellers i =
      if i = id then (net.tellers id).step P R chainId minVEffDelay capacity input
      else net.tellers i :=
  Function.update_apply ..

theorem logs_le_tell (id i : ValidatorId) (input : TellerInput) : net.logs vs keyOf i ≤
    (net.tell P R chainId minVEffDelay capacity id input).logs vs keyOf i := by
  rw [logs_tell]
  split_ifs with hi
  · rw [hi]
    exact viewLog_le_cons input _
  · exact ViewLog.le_refl _

variable (P R chainId minVEffDelay capacity) in
/-- Everything honest that is heard has been cast. -/
theorem Sound.heard_tell (h : net.Sound vs byz keyOf) (id : ValidatorId) {input : TellerInput}
    (hgenuine : net.Genuine vs byz keyOf input) : ∀ i ∈ honest vs byz, ∀ u,
      ∀ r ∈ ((net.tell P R chainId minVEffDelay capacity id input).logs vs keyOf i).voters u,
        r ∈ honest vs byz → r ∈ net.casters vs byz keyOf u := by
  intro i hi u r hr hrh
  rw [logs_tell] at hr
  split_ifs at hr with hid
  · rcases mem_voters_cons.mp hr with hr | ⟨-, hballot⟩
    · exact h.heard i hi u r (hid ▸ hr) hrh
    · cases input with
      | timeoutVote signed trusted =>
        obtain ⟨hkey, hview⟩ := Prod.mk.inj (Option.some.inj hballot)
        obtain ⟨cast, hmem, hsigner, hpayload⟩ := hgenuine r hrh.1 hrh.2 hkey
        exact mem_casters.mpr
          ⟨hrh, cast, hmem, hsigner.trans hkey, (congrArg _ hpayload).trans hview⟩
      | _ => cases hballot
  · exact h.heard i hi u r hr hrh

/-- Only views that an honest member has timed out in can end. -/
theorem Sound.fits (hbyz : 3 * vs.weightIn byz ≤ vs.totalWeight) (h : net.Sound vs byz keyOf)
    {A : Finset ValidatorId} {u : ℕ}
    (hA : ∀ r ∈ A, r ∈ honest vs byz → r ∈ net.casters vs byz keyOf u)
    (hends : vs.viewRule.ends A) : u + 1 < 2 ^ 64 := by
  obtain ⟨r, hr, hrh⟩ := exists_honest hbyz A (vs.viewRule.begins_of_ends hends)
  obtain ⟨-, signed, hmem, hsigner, rfl⟩ := mem_casters.mp (hA r hr hrh)
  exact (h.sent signed hmem r hrh hsigner).2

theorem Sound.tell (hbyz : 3 * vs.weightIn byz ≤ vs.totalWeight) (h : net.Sound vs byz keyOf)
    {id : ValidatorId} {input : TellerInput}
    (hallowed : (net.tellers id).Allowed P R chainId minVEffDelay capacity input)
    (hgenuine : net.Genuine vs byz keyOf input) :
    (net.tell P R chainId minVEffDelay capacity id input).Sound vs byz keyOf := by
  have hheard := h.heard_tell P R chainId minVEffDelay capacity id hgenuine
  have hwrap : id ∈ honest vs byz → ∀ u,
      vs.viewRule.ends ((viewLog vs keyOf (input :: net.inputs id)).voters u) → u + 1 < 2 ^ 64 := by
    intro hid u hends
    have hvoters := hheard id hid u
    rw [logs_tell, if_pos rfl] at hvoters
    exact h.fits hbyz hvoters hends
  have hmono : ∀ r ∈ honest vs byz, net.views r ≤
      (net.tell P R chainId minVEffDelay capacity id input).views r := by
    intro r hr
    unfold views
    rw [tellers_tell]
    split_ifs with hid
    · subst hid
      exact (h.minuted r hr).mono_step hallowed (hwrap hr)
    · exact le_rfl
  refine ⟨?_, ?_, hheard, ?_⟩
  · intro i hi
    rw [tellers_tell, logs_tell]
    split_ifs with hid
    · subst hid
      exact (h.minuted i hi).step hallowed
    · exact h.minuted i hi
  · intro signed hmem r hr hsigner
    obtain ⟨hle, hfits⟩ := h.sent signed hmem r hr hsigner
    exact ⟨hle.trans (hmono r hr), hfits⟩
  · refine h.backed.step (exists_honest hbyz) (fun i _ => logs_le_tell id i input) ?_ ?_
    · intro i hi u r hr hrh
      obtain ⟨-, signed, hmem, hsigner, rfl⟩ := mem_casters.mp (hheard i hi u r hr hrh)
      exact (h.sent signed hmem r hrh hsigner).1
    · intro i hi w hw
      unfold views at hw
      rw [tellers_tell] at hw
      rw [logs_tell]
      split_ifs at hw ⊢ with hid
      · subst hid
        exact (h.minuted i hi).follows_step hallowed (hwrap hi) hw
      · exact .inl hw

theorem timeoutPayload_view (n : ConsensusNode) (stored : Option TimeoutVote) (view : ℕ) :
    (n.timeoutPayload stored view).view = view := by
  unfold ConsensusNode.timeoutPayload
  split
  · split_ifs with hview
    · exact hview
    · rfl
  · rfl

theorem currentView_of_timesOut {n : ConsensusNode} {view : ℕ} (h : n.timesOut view = true) :
    view = n.currentView := by
  by_contra hview
  have hnone : (n.pacemaker.step n.leads (.onTimeout view)).2 = [] := by
    simp only [Pacemaker.step]
    exact congrArg Prod.snd (if_pos hview)
  unfold ConsensusNode.timesOut at h
  rw [hnone] at h
  cases h

/-- A timer that fires leaves the view as it is. -/
theorem views_ticked (id i : ValidatorId) (view : ℕ) :
    (net.tell P R chainId minVEffDelay capacity id (.pacemaker (.onTimeout view))).views i =
      net.views i := by
  unfold views
  rw [tellers_tell]
  split_ifs with hid
  · subst hid
    have hallowed : (net.tellers i).Allowed P R chainId minVEffDelay capacity
        (.pacemaker (.onTimeout view)) := trivial
    exact (TimeoutTeller.quiet_step hallowed (by simp)).2.2.2.2.1
  · rfl

/-- The votes that a validator casts are for its view, and nobody else has its key. -/
theorem Sound.ballot_ok (hinj : ∀ a ∈ vs.members, ∀ b ∈ vs.members, keyOf a = keyOf b → a = b)
    {id : ValidatorId} (hid : id ∈ honest vs byz) {view : ℕ} (hview : view = net.views id)
    (hfits : view + 1 < 2 ^ 64) : ∀ r ∈ honest vs byz,
      (net.ballot keyOf sign id view).signer = keyOf r →
        (net.ballot keyOf sign id view).payload.view ≤ net.views r ∧
          (net.ballot keyOf sign id view).payload.view + 1 < 2 ^ 64 := by
  intro r hr hsigner
  obtain rfl := hinj id hid.1 r hr.1 hsigner
  have hpayload : (net.ballot keyOf sign id view).payload.view = view :=
    timeoutPayload_view _ _ _
  rw [hpayload]
  exact ⟨hview.le, hfits⟩

theorem Sound.step (hbyz : 3 * vs.weightIn byz ≤ vs.totalWeight)
    (hinj : ∀ a ∈ vs.members, ∀ b ∈ vs.members, keyOf a = keyOf b → a = b)
    (h : net.Sound vs byz keyOf) {input : ViewInput}
    (hadmits : net.Admits P R chainId minVEffDelay capacity vs byz keyOf input) :
    (net.step P R chainId minVEffDelay capacity keyOf sign input).Sound vs byz keyOf := by
  cases input with
  | tell id input => exact h.tell hbyz hadmits.2.1 hadmits.2.2
  | timer id view =>
    obtain ⟨hmem, hid, hfits⟩ := hadmits
    have hticked : (net.tell P R chainId minVEffDelay capacity id
        (.pacemaker (.onTimeout view))).Sound vs byz keyOf := h.tell hbyz trivial trivial
    simp only [ViewNet.step]
    split_ifs with hout
    · refine Sound.tell hbyz (hticked.cast fun r hr hsigner => ?_) trivial fun r _ _ _ => ?_
      · rw [views_ticked]
        exact Sound.ballot_ok hinj ⟨hmem, hid⟩ (currentView_of_timesOut hout) hfits r hr hsigner
      · exact ⟨_, List.mem_cons_self .., rfl, rfl⟩
    · exact hticked

end

section
variable {vs : ValidatorSet} {byz : Finset ValidatorId} {keyOf : ValidatorId → NodeId}

theorem sound_start {nodes : ValidatorId → ConsensusNode} (storages : ValidatorId → Storage)
    (hnodes : ∀ id ∈ honest vs byz, (nodes id).KnowsKeys vs keyOf ∧ (nodes id).currentView = 0) :
    (start storages nodes).Sound vs byz keyOf where
  minuted := fun id hid => TimeoutTeller.minuted_start (hnodes id hid).1 _ _
  sent := fun _ hmem => absurd hmem List.not_mem_nil
  heard := by
    intro id _ u r hr _
    exact absurd (mem_voters.mp hr).2 List.not_mem_nil
  backed := by
    intro id hid u hu
    have hzero : (start storages nodes).views id = 0 := (hnodes id hid).2
    omega

theorem keyOf_injective {n : ConsensusNode} (hn : n.KnowsKeys vs keyOf) :
    ∀ a ∈ vs.members, ∀ b ∈ vs.members, keyOf a = keyOf b → a = b := by
  intro a ha b hb hkey
  have hfor := (hn.keys a ha (keyOf a)).mpr rfl
  exact Option.some.inj (hfor.symm.trans ((hn.keys b hb _).mpr hkey))

end
end ViewNet

/-- Byzantine members of at most a third of the weight take no honest member past a view: whenever
an honest member is past it, one of them was told of a certificate for that view or a later one, or
honest members of more than a third of the weight have timed out in this very view. -/
theorem views_backed (P : Primitives) (R : HistoryPrimitives) (chainId : ChainId)
    (minVEffDelay capacity : ℕ) {vs : ValidatorSet} {byz : Finset ValidatorId}
    {keyOf : ValidatorId → NodeId} (sign : NodeId → TimeoutVote → ℕ)
    (hbyz : 3 * vs.weightIn byz ≤ vs.totalWeight) (storages : ValidatorId → Storage)
    {nodes : ValidatorId → ConsensusNode}
    (hnodes : ∀ id ∈ vs.members, id ∉ byz →
      (nodes id).KnowsKeys vs keyOf ∧ (nodes id).currentView = 0) {inputs : List ViewInput}
    (h : Along (ViewNet.step P R chainId minVEffDelay capacity keyOf sign)
      (ViewNet.Admits P R chainId minVEffDelay capacity vs byz keyOf) (.start storages nodes)
      inputs) :
    ∀ id ∈ vs.members, id ∉ byz → ∀ u,
      u < (run (ViewNet.step P R chainId minVEffDelay capacity keyOf sign)
        (.start storages nodes) inputs).views id →
      (∃ r ∈ vs.members, r ∉ byz ∧ ∃ v, u ≤ v ∧ v ∈ toldViews
        ((run (ViewNet.step P R chainId minVEffDelay capacity keyOf sign) (.start storages nodes)
          inputs).inputs r)) ∨
      vs.totalWeight < 3 * vs.weightIn ((run (ViewNet.step P R chainId minVEffDelay capacity keyOf
        sign) (.start storages nodes) inputs).casters vs byz keyOf u) := by
  intro id hmem hid u hu
  have hinj := ViewNet.keyOf_injective (hnodes id hmem hid).1
  have hsound := h.invariant (fun net input hadmits hs => ViewNet.Sound.step hbyz hinj hs hadmits)
    (ViewNet.sound_start storages fun id hid => hnodes id hid.1 hid.2)
  generalize run (ViewNet.step P R chainId minVEffDelay capacity keyOf sign)
    (.start storages nodes) inputs = net at hsound hu ⊢
  obtain ⟨r, hr, ⟨v, hv, htold⟩ | hends⟩ := hsound.backed id ⟨hmem, hid⟩ u hu
  · exact .inl ⟨r, hr.1, hr.2, v, hv, htold⟩
  · refine .inr ?_
    have hquorum := (vs.quorumWeightThreshold_le_iff _).mp hends
    have hsub : ((net.logs vs keyOf r).voters u) ⊆ net.casters vs byz keyOf u ∪ byz := by
      intro x hx
      by_cases hxb : x ∈ byz
      · exact Finset.mem_union_right _ hxb
      · exact Finset.mem_union_left _
          (hsound.heard r hr u x hx ⟨(mem_voters.mp hx).1, hxb⟩)
    have hle : vs.weightIn ((net.logs vs keyOf r).voters u) ≤
        vs.weightIn (net.casters vs byz keyOf u) + vs.weightIn byz := by
      refine (Quorum.weight_mono _ hsub).trans ?_
      have hsum := Quorum.weight_union_add_inter vs.weightOf (net.casters vs byz keyOf u) byz
      exact hsum ▸ Nat.le_add_right _ _
    omega

namespace Sample

theorem recover_isSome (id : ValidatorId) :
    (recover timed { config with selfId := id } .empty).isSome = true := rfl

/-- A validator of the sample set that has just started. -/
def booted (id : ValidatorId) : ConsensusNode :=
  (recover timed { config with selfId := id } .empty).get (recover_isSome id)

theorem booted_knowsKeys (id' : ValidatorId) :
    (booted id').KnowsKeys validators id ∧ (booted id').currentView = 0 :=
  ConsensusNode.knowsKeys_recover (Option.some_get (recover_isSome id')).symm

def viewStep : ViewNet → ViewInput → ViewNet :=
  ViewNet.step timed allChanges chainId config.minVEffDelay 8 id fun _ _ => 0

/-- The timeout vote of a validator for view 1. -/
def timeoutOf (id : ValidatorId) : TellerInput :=
  .timeoutVote ⟨(booted id).persistFreshTimeoutVote 1, id, 0⟩ true

/-- The honest validators 1, 2 and 3 enter view 1. -/
def entering : List ViewInput := [1, 2, 3].map fun id => .tell id (.pacemaker (.onQc 0))

/-- Validators 2 and 3 time out; validator 1 hears them and the Byzantine validator 4. -/
def hearingThree : List ViewInput :=
  entering ++ [.timer 2 1, .timer 3 1, .tell 1 (timeoutOf 4), .tell 1 (timeoutOf 2),
    .tell 1 (timeoutOf 3)]

theorem hearingThree_backed :
    (run viewStep (.start (fun _ => .empty) booted) hearingThree).views 1 = 2 ∧
      validators.totalWeight < 3 * validators.weightIn
        ((run viewStep (.start (fun _ => .empty) booted) hearingThree).casters validators {4} id
          1) := by
  obtain ⟨hview, hcert, hadmits⟩ :
      (run viewStep (.start (fun _ => .empty) booted) hearingThree).views 1 = 2 ∧
      (∀ r ∈ validators.members, ∀ v ∈ toldViews
        ((run viewStep (.start (fun _ => .empty) booted) hearingThree).inputs r), v < 1) ∧
      Along viewStep (ViewNet.Admits timed allChanges chainId config.minVEffDelay 8 validators {4}
        id) (.start (fun _ => .empty) booted) hearingThree := by decide +kernel
  refine ⟨hview, (views_backed timed allChanges chainId config.minVEffDelay 8 _ (by decide +kernel)
    (fun _ => .empty) (fun id' _ _ => booted_knowsKeys id') hadmits 1 (by decide) (by decide) 1
    (hview.trans_gt (by decide))).resolve_left ?_⟩
  rintro ⟨r, hr, -, v, hv, hmem⟩
  exact absurd (hcert r hr v hmem) (Nat.not_lt.mpr hv)

end Sample

end Boule
