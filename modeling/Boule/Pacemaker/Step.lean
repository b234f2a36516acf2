import Boule.Dispatch.Wire

/-! The pacemaker's view and its transitions. The selector and the timeout policy it holds are
arguments: whether this node leads a view, and the timeout as the failures it is computed
from. -/
namespace Boule

inductive AdvanceCause where
  | qc
  | tc
  | roundSync
  deriving DecidableEq

def AdvanceCause.asStr : AdvanceCause → String
  | qc => "qc"
  | tc => "tc"
  | roundSync => "round_sync"

inductive PacemakerAction where
  | advanceToView (view : ℕ) (cause : AdvanceCause)
  | becomeLeader (view : ℕ)
  | sendTimeout (view : ℕ)
  | resetTimer (consecutiveFailures : ℕ)
  deriving DecidableEq

structure Pacemaker where
  currentView : ℕ
  highQcView : ℕ
  consecutiveFailures : ℕ
  deriving DecidableEq

namespace Pacemaker

def new : Pacemaker := ⟨0, 0, 0⟩

def advanceTo (leads : ℕ → Bool) (pm : Pacemaker) (newView : ℕ) (cause : AdvanceCause) :
    Pacemaker × List PacemakerAction :=
  ({ pm with currentView := newView, consecutiveFailures := 0 },
    .advanceToView newView cause ::
      (if leads newView then [.becomeLeader newView] else []) ++ [.resetTimer 0])

def step (leads : ℕ → Bool) (pm : Pacemaker) : PacemakerEvent → Pacemaker × List PacemakerAction
  | .onQc v =>
    if v < pm.currentView then (pm, [])
    else advanceTo leads { pm with highQcView := max pm.highQcView v } (addU64 v 1) .qc
  | .onTimeoutCert v =>
    if v < pm.currentView then (pm, []) else pm.advanceTo leads (addU64 v 1) .tc
  | .onTimeout v =>
    if v ≠ pm.currentView then (pm, [])
    else
      let failures := saturatingAddU32 pm.consecutiveFailures 1
      ({ pm with consecutiveFailures := failures }, [.sendTimeout v, .resetTimer failures])
  | .onProposalReceived v =>
    if v ≠ pm.currentView then (pm, []) else (pm, [.resetTimer pm.consecutiveFailures])
  | .onRoundSync v =>
    if v ≤ pm.currentView then (pm, []) else pm.advanceTo leads v .roundSync

end Pacemaker

end Boule
