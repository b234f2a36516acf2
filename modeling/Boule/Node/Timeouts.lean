import Boule.Node.Machine

/-! A node as a process that signs timeout votes. Only the last vote is stored; a restart enters
the view after its highest certificate and its last vote. -/
namespace Boule

/-- `signing` is the payload that `send_timeout` has read or stored and not signed yet,
`signedTimeouts` what has been signed. -/
structure TimedMachine where
  machine : Machine
  lastTimeoutVote : Option TimeoutVote
  signing : Option TimeoutVote
  signedTimeouts : List TimeoutVote
  deriving DecidableEq

/-- `timer` stands for the view timer that fires, `sign` for the rest of `send_timeout`. -/
inductive TimedInput where
  | restart (order : IterOrder)
  | node (input : NodeInput)
  | timer (view : ℕ)
  | sign

/-- The view that the pacemaker is told when a node starts to run. -/
def HotStuffState.bootView (s : HotStuffState) : ℕ :=
  max ((s.highQc.map QuorumCertificate.view).getD 0) s.lastVotedView

namespace ConsensusNode

def persistFreshTimeoutVote (n : ConsensusNode) (view : ℕ) : TimeoutVote :=
  ⟨view, n.core.state.highQc⟩

/-- The payload that `send_timeout` signs; it is what is stored afterwards. -/
def timeoutPayload (n : ConsensusNode) (stored : Option TimeoutVote) (view : ℕ) : TimeoutVote :=
  match stored with
  | some prev => if prev.view = view then prev else n.persistFreshTimeoutVote view
  | none => n.persistFreshTimeoutVote view

/-- Whether the timer of the view makes this node send a timeout vote. -/
def timesOut (n : ConsensusNode) (view : ℕ) : Bool :=
  (n.pacemaker.step n.leads (.onTimeout view)).2.contains (.sendTimeout view) && !n.isFull

end ConsensusNode

namespace TimedMachine

def start : TimedMachine := ⟨.start, none, none, []⟩

section
variable (P : Primitives) (V : Verifier) (R : ReconfigPrimitives) (cfg : NodeConfig)

/-- Boot, then tell the pacemaker the boot view. -/
def restart (m : Machine) (order : IterOrder) : Machine :=
  match (m.step P V R cfg .boot).process with
  | none => m.step P V R cfg .boot
  | some p =>
    (m.step P V R cfg .boot).step P V R cfg
      (.dispatch order true (.pacemaker (.onQc p.node.core.state.bootView)))

/-- What is not signed yet is lost with the process. -/
def onMachine (t : TimedMachine) (m : Machine) : TimedMachine :=
  { t with machine := m, signing := if m.process.isSome then t.signing else none }

def step (t : TimedMachine) : TimedInput → TimedMachine
  | .restart order =>
    if t.machine.process.isSome then t else t.onMachine (restart P V R cfg t.machine order)
  | .node .boot => t
  | .node input => t.onMachine (t.machine.step P V R cfg input)
  | .timer view =>
    match t.machine.process with
    | none => t
    | some ⟨n, frames⟩ =>
      let pacemaker := (n.pacemaker.step n.leads (.onTimeout view)).1
      let t' := { t with machine := t.machine.keep { n with pacemaker := pacemaker } frames }
      if n.timesOut view then
        let payload := n.timeoutPayload t.lastTimeoutVote view
        { t' with lastTimeoutVote := some payload, signing := some payload }
      else t'
  | .sign =>
    match t.signing with
    | none => t
    | some payload =>
      { t with signing := none, signedTimeouts := t.signedTimeouts ++ [payload] }

end

/-- A view that recurs, for a timeout after one in another view, finds the high certificate of the
votes that were signed for it before. -/
def KeepsHighQc (t : TimedMachine) : TimedInput → Prop
  | .timer view => ∀ p ∈ t.machine.process, p.node.timesOut view = true →
    (∀ r ∈ t.lastTimeoutVote, r.view ≠ view) →
      ∀ vote ∈ t.signedTimeouts, vote.view = view → vote.highQc = p.node.core.state.highQc
  | _ => True

instance (t : TimedMachine) : DecidablePred t.KeepsHighQc
  | .timer view => inferInstanceAs (Decidable (∀ p ∈ t.machine.process, _ →
    (∀ r ∈ t.lastTimeoutVote, _) → ∀ vote ∈ t.signedTimeouts, vote.view = view → _))
  | .restart _ | .node _ | .sign => inferInstanceAs (Decidable True)

/-- All signed votes for one view are equal, also to the stored one. -/
structure OneTimeoutVote (t : TimedMachine) : Prop where
  signing : ∀ vote ∈ t.signing, t.lastTimeoutVote = some vote
  stored : ∀ r ∈ t.lastTimeoutVote, ∀ vote ∈ t.signedTimeouts, vote.view = r.view → vote = r
  once : ∀ a ∈ t.signedTimeouts, ∀ b ∈ t.signedTimeouts, a.view = b.view → a = b

section
variable {P : Primitives} {V : Verifier} {R : ReconfigPrimitives} {cfg : NodeConfig}
  {t : TimedMachine}

theorem oneTimeoutVote_onMachine (h : t.OneTimeoutVote) (m : Machine) :
    (t.onMachine m).OneTimeoutVote where
  signing := by
    intro vote hvote
    unfold onMachine at hvote
    simp only at hvote
    split_ifs at hvote
    · exact h.signing vote hvote
    · cases hvote
  stored := h.stored
  once := h.once

/-- What is stored for a timeout agrees with the votes that were signed for its view. -/
theorem timeoutPayload_agrees (h : t.OneTimeoutVote) {n : ConsensusNode} {view : ℕ}
    (hq : (∀ r ∈ t.lastTimeoutVote, r.view ≠ view) →
      ∀ vote ∈ t.signedTimeouts, vote.view = view → vote.highQc = n.core.state.highQc) :
    ∀ vote ∈ t.signedTimeouts,
      vote.view = (n.timeoutPayload t.lastTimeoutVote view).view →
        vote = n.timeoutPayload t.lastTimeoutVote view := by
  have hfresh : (∀ r ∈ t.lastTimeoutVote, r.view ≠ view) → ∀ vote ∈ t.signedTimeouts,
      vote.view = view → vote = n.persistFreshTimeoutVote view := by
    intro hstored vote hvote hview
    have hqc := hq hstored vote hvote hview
    obtain ⟨v, qc⟩ := vote
    simp only at hview hqc
    rw [hview, hqc]
    rfl
  unfold ConsensusNode.timeoutPayload
  cases hr : t.lastTimeoutVote with
  | none => exact hfresh (by simp [hr])
  | some prev =>
    by_cases hview : prev.view = view
    · simp only [hview, if_true]
      intro vote hvote hv
      exact h.stored prev hr vote hvote (hv.trans hview.symm)
    · simp only [hview, if_false]
      exact hfresh (by simpa [hr] using hview)

theorem oneTimeoutVote_step {input : TimedInput} (hq : t.KeepsHighQc input)
    (h : t.OneTimeoutVote) : (t.step P V R cfg input).OneTimeoutVote := by
  cases input with
  | restart order =>
    simp only [step]
    split_ifs
    · exact h
    · exact oneTimeoutVote_onMachine h _
  | node input =>
    cases input with
    | boot => exact h
    | _ => exact oneTimeoutVote_onMachine h _
  | timer view =>
    simp only [step]
    cases hp : t.machine.process with
    | none => exact h
    | some p =>
      simp only
      split_ifs with hout
      · have hagrees := timeoutPayload_agrees h (hq p hp hout)
        refine ⟨fun vote hvote => hvote, ?_, h.once⟩
        intro r hr vote hvote hview
        obtain rfl := Option.some.inj hr
        exact hagrees vote hvote hview
      · exact ⟨h.signing, h.stored, h.once⟩
  | sign =>
    simp only [step]
    cases hs : t.signing with
    | none => exact h
    | some payload =>
      have hstored := h.signing payload hs
      have hagrees : ∀ vote ∈ t.signedTimeouts ++ [payload], vote.view = payload.view →
          vote = payload := by
        intro vote hvote hview
        rcases List.mem_append.mp hvote with hvote | hvote
        · exact h.stored payload hstored vote hvote hview
        · exact List.mem_singleton.mp hvote
      refine ⟨by simp, ?_, ?_⟩
      · intro r hr
        obtain rfl := Option.some.inj (hstored.symm.trans hr)
        exact hagrees
      · intro a ha b hb hview
        by_cases hpayload : a.view = payload.view
        · exact (hagrees a ha hpayload).trans (hagrees b hb (hview.symm.trans hpayload)).symm
        · have hold : ∀ vote ∈ t.signedTimeouts ++ [payload], vote.view ≠ payload.view →
              vote ∈ t.signedTimeouts := by
            intro vote hvote hne
            rcases List.mem_append.mp hvote with hvote | hvote
            · exact hvote
            · rw [List.mem_singleton.mp hvote] at hne
              exact absurd rfl hne
          exact h.once a (hold a ha hpayload) b (hold b hb (hview ▸ hpayload)) hview

end

/-- Unless a view is timed out in again with another high certificate after the stored vote was
overwritten, the timeout votes that are signed for a view are all equal. -/
theorem one_timeout_vote (P : Primitives) (V : Verifier) (R : ReconfigPrimitives)
    (cfg : NodeConfig) (inputs : List TimedInput)
    (h : Along (step P V R cfg) KeepsHighQc start inputs) :
    ∀ a ∈ (run (step P V R cfg) start inputs).signedTimeouts,
      ∀ b ∈ (run (step P V R cfg) start inputs).signedTimeouts, a.view = b.view → a = b :=
  (h.invariant (I := OneTimeoutVote) (fun _ _ hq ht => oneTimeoutVote_step hq ht)
    ⟨by simp [start], by simp [start], by simp [start]⟩).once

end TimedMachine

namespace Sample

def timedStep (t : TimedMachine) (input : TimedInput) : TimedMachine :=
  t.step timed verifier reconfigs config input

def block₁ : Block := blockOn root 1 0 []

def toldView (event : PacemakerEvent) : TimedInput :=
  .node (.dispatch order true (.pacemaker event))

def interpreted (k : ℕ) : List TimedInput := (rounds k).map .node

/-- The certificate of the block reaches the node with a `NewView`. -/
def heardCertificate : TimedInput :=
  .node (.dispatch order true (.safety (.newViewReceived ⟨⟨⟨certificate block₁⟩, 3, 0⟩, 3⟩)))

/-- The node votes in view 1, times out in view 2, goes on with the timeout certificate and times
out in view 3. -/
def timingOut : List TimedInput :=
  [.restart order, .node (proposed block₁ (certificate root))] ++ interpreted 12 ++
    [toldView (.onTimeoutCert 1)] ++ interpreted 4 ++ [.timer 2, .sign] ++
    [toldView (.onTimeoutCert 2)] ++ interpreted 4 ++ [.timer 3, .sign]

/-- Times out twice in view 3, with a restart in between. -/
def timingOutAgain : List TimedInput :=
  timingOut ++
    [.timer 3, .node .crash, .restart order, toldView (.onTimeoutCert 2), .timer 3, .sign]

theorem timingOutAgain_one_vote :
    (run timedStep .start timingOutAgain).signedTimeouts.map TimeoutVote.view = [2, 3, 3] ∧
      ∀ a ∈ (run timedStep .start timingOutAgain).signedTimeouts,
        ∀ b ∈ (run timedStep .start timingOutAgain).signedTimeouts, a.view = b.view → a = b :=
  ⟨by decide +kernel, TimedMachine.one_timeout_vote timed verifier reconfigs config timingOutAgain
    (by decide +kernel)⟩

/-- A restart after the timeout in view 3 enters view 2 again, where the node hears of another
certificate before it times out. -/
def reentering : List TimedInput :=
  timingOut ++ [.node .crash, .restart order, heardCertificate] ++ interpreted 6 ++
    [.timer 2, .sign]

theorem reentering_two_votes :
    ∃ a ∈ (run timedStep .start reentering).signedTimeouts,
      ∃ b ∈ (run timedStep .start reentering).signedTimeouts, a.view = b.view ∧ a ≠ b := by
  decide +kernel

end Sample

end Boule
