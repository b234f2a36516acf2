import Mathlib.Data.Nat.Notation

/-! Runs of a deterministic machine over a list of inputs. -/
namespace Boule

section
variable {σ α : Type} (step : σ → α → σ)

/-- The state after all inputs. -/
def run (s : σ) (inputs : List α) : σ := inputs.foldl step s

/-- `Q` holds of every input and of the state it meets. -/
def Along (Q : σ → α → Prop) : σ → List α → Prop
  | _, [] => True
  | s, a :: inputs => Q s a ∧ Along Q (step s a) inputs

instance Along.decidable (Q : σ → α → Prop) [∀ s a, Decidable (Q s a)] :
    ∀ s inputs, Decidable (Along step Q s inputs)
  | _, [] => inferInstanceAs (Decidable True)
  | s, a :: inputs =>
    have := Along.decidable Q (step s a) inputs
    inferInstanceAs (Decidable (Q s a ∧ Along step Q (step s a) inputs))

variable {step}

@[simp] theorem run_nil (s : σ) : run step s [] = s := rfl

@[simp] theorem run_cons (s : σ) (a : α) (inputs : List α) :
    run step s (a :: inputs) = run step (step s a) inputs := rfl

theorem run_append (s : σ) (inputs inputs' : List α) :
    run step s (inputs ++ inputs') = run step (run step s inputs) inputs' :=
  List.foldl_append

theorem Along.and {Q R : σ → α → Prop} {s : σ} {inputs : List α} (h : Along step Q s inputs)
    (h' : Along step R s inputs) : Along step (fun s a => Q s a ∧ R s a) s inputs := by
  induction inputs generalizing s with
  | nil => trivial
  | cons a inputs ih => exact ⟨⟨h.1, h'.1⟩, ih h.2 h'.2⟩

theorem Along.mono {Q R : σ → α → Prop} {s : σ} {inputs : List α} (h : Along step Q s inputs)
    (hQR : ∀ s a, Q s a → R s a) : Along step R s inputs := by
  induction inputs generalizing s with
  | nil => trivial
  | cons a inputs ih => exact ⟨hQR s a h.1, ih h.2⟩

theorem Along.of_forall {R : α → Prop} {s : σ} {inputs : List α} (h : ∀ a ∈ inputs, R a) :
    Along step (fun _ a => R a) s inputs := by
  induction inputs generalizing s with
  | nil => trivial
  | cons a inputs ih =>
    exact ⟨h a (List.mem_cons_self ..), ih fun b hb => h b (List.mem_cons_of_mem _ hb)⟩

theorem Along.congr {Q R : σ → α → Prop} (h : ∀ s a, Q s a ↔ R s a) (s : σ)
    (inputs : List α) : Along step Q s inputs ↔ Along step R s inputs := by
  induction inputs generalizing s with
  | nil => exact Iff.rfl
  | cons a inputs ih => exact and_congr (h s a) (ih (step s a))

theorem Along.append {Q : σ → α → Prop} {s : σ} {inputs inputs' : List α}
    (h : Along step Q s (inputs ++ inputs')) :
    Along step Q s inputs ∧ Along step Q (run step s inputs) inputs' := by
  induction inputs generalizing s with
  | nil => exact ⟨trivial, h⟩
  | cons a inputs ih =>
    obtain ⟨hl, hr⟩ := ih h.2
    exact ⟨⟨h.1, hl⟩, hr⟩

theorem Along.take {Q : σ → α → Prop} {s : σ} {inputs : List α} (h : Along step Q s inputs)
    (k : ℕ) : Along step Q s (inputs.take k) := by
  rw [← List.take_append_drop k inputs] at h
  exact h.append.1

/-- What every step preserves holds at the end of every run. -/
theorem run_invariant {I : σ → Prop} (hstep : ∀ s a, I s → I (step s a)) {s : σ} (hs : I s)
    (inputs : List α) : I (run step s inputs) := by
  induction inputs generalizing s with
  | nil => exact hs
  | cons a inputs ih => exact ih (hstep s a hs)

/-- What every step of a run preserves holds at its end. -/
theorem Along.invariant {Q : σ → α → Prop} {I : σ → Prop} {s : σ} {inputs : List α}
    (h : Along step Q s inputs) (hstep : ∀ s a, Q s a → I s → I (step s a)) (hs : I s) :
    I (run step s inputs) := by
  induction inputs generalizing s with
  | nil => exact hs
  | cons a inputs ih => exact ih h.2 (hstep s a h.1 hs)

/-- What holds of every step from a state with the invariant holds all along. -/
theorem Along.imp_of_invariant {Q R : σ → α → Prop} {I : σ → Prop} {s : σ} {inputs : List α}
    (h : Along step Q s inputs) (hstep : ∀ s a, Q s a → I s → I (step s a) ∧ R s a)
    (hs : I s) : Along step R s inputs := by
  induction inputs generalizing s with
  | nil => trivial
  | cons a inputs ih =>
    obtain ⟨hi, hr⟩ := hstep s a h.1 hs
    exact ⟨hr, ih h.2 hi⟩

/-- Conditions that agree under an invariant agree all along. -/
theorem along_congr_of_invariant {Q R : σ → α → Prop} {I : σ → Prop}
    (hstep : ∀ s a, I s → I (step s a)) (h : ∀ s a, I s → (Q s a ↔ R s a)) {s : σ}
    {inputs : List α} (hs : I s) : Along step Q s inputs ↔ Along step R s inputs := by
  induction inputs generalizing s with
  | nil => exact Iff.rfl
  | cons a inputs ih => exact and_congr (h s a hs) (ih (hstep s a hs))

/-- In a run with `R` all along: where steps with `Q` keep an invariant, and a step after which `P`
still holds has `Q`, the run has `P` throughout exactly when `Q` holds all along. -/
theorem Along.iff_of_invariant {Q R : σ → α → Prop} {I P : σ → Prop} (hkept : ∀ s, I s → P s)
    (hstep : ∀ s a, I s → R s a → Q s a → I (step s a))
    (hneed : ∀ s a, I s → R s a → P (step s a) → Q s a) {s : σ} {inputs : List α}
    (h : Along step R s inputs) (hs : I s) :
    (∀ k, P (run step s (inputs.take k))) ↔ Along step Q s inputs := by
  constructor
  · intro hall
    induction inputs generalizing s with
    | nil => trivial
    | cons a inputs ih =>
      have hq : Q s a := hneed s a hs h.1 (hall 1)
      exact ⟨hq, ih h.2 (hstep s a hs h.1 hq) fun k => hall (k + 1)⟩
  · intro hq k
    refine hkept _ (((h.take k).and (hq.take k)).invariant ?_ hs)
    exact fun s a hrq hi => hstep s a hi hrq.1 hrq.2

theorem along_iff_of_invariant {Q : σ → α → Prop} {I P : σ → Prop} (hkept : ∀ s, I s → P s)
    (hstep : ∀ s a, I s → Q s a → I (step s a)) (hneed : ∀ s a, I s → P (step s a) → Q s a)
    {s : σ} {inputs : List α} (hs : I s) :
    (∀ k, P (run step s (inputs.take k))) ↔ Along step Q s inputs :=
  Along.iff_of_invariant (R := fun _ _ => True) hkept (fun s a hi _ => hstep s a hi)
    (fun s a hi _ => hneed s a hi) (Along.of_forall fun _ _ => trivial) hs

theorem along_iff_of_step {Q : σ → α → Prop} {I : σ → Prop}
    (hstep : ∀ s a, I s → (I (step s a) ↔ Q s a)) {s : σ} {inputs : List α} (hs : I s) :
    (∀ k, I (run step s (inputs.take k))) ↔ Along step Q s inputs :=
  along_iff_of_invariant (fun _ hi => hi) (fun s a hi => (hstep s a hi).mpr)
    (fun s a hi => (hstep s a hi).mp) hs

end

theorem foldl_keeps {α β γ : Type} {step : α → β → α} {f : α → γ}
    (h : ∀ a b, f (step a b) = f a) (a : α) (bs : List β) : f (bs.foldl step a) = f a := by
  induction bs generalizing a with
  | nil => rfl
  | cons b bs ih => rw [List.foldl_cons, ih, h]

/-- Two machines that are fed the same inputs. -/
theorem run_pair {σ τ α : Type} (step : σ → α → σ) (step' : τ → α → τ) (s : σ) (t : τ)
    (inputs : List α) : run (fun (r : σ × τ) a => (step r.1 a, step' r.2 a)) (s, t) inputs =
      (run step s inputs, run step' t inputs) := by
  induction inputs generalizing s t with
  | nil => rfl
  | cons a inputs ih => exact ih (step s a) (step' t a)

/-! A run of one machine is the image of a run of another one. -/
section
variable {σ τ α : Type} {step : σ → α → σ} {step' : τ → α → τ} {f : τ → σ}

theorem run_image (hf : ∀ t a, f (step' t a) = step (f t) a) (t : τ) (inputs : List α) :
    f (run step' t inputs) = run step (f t) inputs := by
  induction inputs generalizing t with
  | nil => rfl
  | cons a inputs ih => rw [run_cons, run_cons, ih, hf]

theorem along_image (hf : ∀ t a, f (step' t a) = step (f t) a) (Q : σ → α → Prop) (t : τ)
    (inputs : List α) :
    Along step' (fun t a => Q (f t) a) t inputs ↔ Along step Q (f t) inputs := by
  induction inputs generalizing t with
  | nil => exact Iff.rfl
  | cons a inputs ih =>
    have htail := ih (step' t a)
    rw [hf] at htail
    exact and_congr Iff.rfl htail

end

end Boule
