import Boule.Lib.Run

/-! Runs of a machine whose steps can fail; a failure ends the run. -/
namespace Boule.Fallible

variable {σ α : Type}

/-- A step of a run that may have ended. -/
def step (call : σ → α → Option σ) (s : Option σ) (a : α) : Option σ := s.bind fun s => call s a

/-- A condition on an input and the state that it meets, if the run has not ended. -/
def Meets (Q : σ → α → Prop) : Option σ → α → Prop
  | none, _ => True
  | some s, a => Q s a

instance (Q : σ → α → Prop) [∀ s a, Decidable (Q s a)] (s : Option σ) (a : α) :
    Decidable (Meets Q s a) :=
  match s with
  | none => inferInstanceAs (Decidable True)
  | some s => inferInstanceAs (Decidable (Q s a))

variable {call : σ → α → Option σ} {Q : σ → α → Prop} {I : σ → Prop} {s : σ} {inputs : List α}

theorem along_and {R : σ → α → Prop} {o : Option σ} (h : Along (step call) (Meets Q) o inputs)
    (h' : Along (step call) (Meets R) o inputs) :
    Along (step call) (Meets fun s a => Q s a ∧ R s a) o inputs := by
  refine (h.and h').mono fun o a hqr => ?_
  cases o with
  | none => trivial
  | some s => exact hqr

/-- Where no step with `Q` fails and each keeps the invariant, no run with `Q` throughout fails. -/
theorem run_invariant (h : Along (step call) (Meets Q) (some s) inputs)
    (hstep : ∀ s a, Q s a → I s → ∃ t, call s a = some t ∧ I t) (hs : I s) :
    ∃ t, run (step call) (some s) inputs = some t ∧ I t := by
  refine h.invariant (I := fun o => ∃ t, o = some t ∧ I t) ?_ ⟨s, rfl, hs⟩
  rintro o a hq ⟨t, rfl, ht⟩
  exact hstep t a hq ht

end Boule.Fallible
