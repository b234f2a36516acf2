import Mathlib.Data.Nat.Notation

/-! Checks in the `Except` monad. -/
namespace Boule

variable {ε α β : Type}

/-- Fail with `e` unless the condition holds. -/
def require (cond : Bool) (e : ε) : Except ε Unit := if cond then .ok () else .error e

/-- Fail on an offender. -/
def refuse (offender : Option α) (e : α → ε) : Except ε Unit :=
  match offender with
  | none => .ok ()
  | some a => .error (e a)

/-- `Option::ok_or` -/
def okOr (o : Option α) (e : ε) : Except ε α := o.elim (.error e) .ok

/-- `Result::map_err` with a constant error. -/
def withError {ε' : Type} (r : Except ε' α) (e : ε) : Except ε α :=
  match r with
  | .ok a => .ok a
  | .error _ => .error e

theorem bind_eq_ok {x : Except ε α} {f : α → Except ε β} {b : β} :
    (x >>= f) = .ok b ↔ ∃ a, x = .ok a ∧ f a = .ok b := by
  constructor
  · intro h
    cases x with
    | error e => cases h
    | ok a => exact ⟨a, rfl, h⟩
  · rintro ⟨a, rfl, h⟩
    exact h

theorem toOption_eq_some {x : Except ε α} {a : α} : x.toOption = some a ↔ x = .ok a := by
  cases x <;> simp [Except.toOption]

theorem mapError_ok {ε' : Type} (f : ε' → ε) (a : α) :
    (Except.ok a : Except ε' α).mapError f = .ok a := rfl

theorem mapError_error {ε' : Type} (f : ε' → ε) (e : ε') :
    (Except.error e : Except ε' α).mapError f = .error (f e) := rfl

theorem mapError_eq_ok {ε' : Type} {r : Except ε' α} {f : ε' → ε} {a : α} :
    r.mapError f = .ok a ↔ r = .ok a := by
  cases r with
  | error e => simp [mapError_error]
  | ok b => simp [mapError_ok]

theorem map_eq_ok {x : Except ε α} {f : α → β} {b : β} :
    x.map f = .ok b ↔ ∃ a, x = .ok a ∧ f a = b := by
  cases x with
  | error e => exact ⟨nofun, nofun⟩
  | ok a =>
    constructor
    · intro h
      exact ⟨a, rfl, Except.ok.inj h⟩
    · rintro ⟨a', ha, hf⟩
      rw [Except.ok.inj ha, ← hf]
      rfl

@[simp] theorem require_eq_ok {cond : Bool} {e : ε} {u : Unit} :
    require cond e = .ok u ↔ cond = true := by
  cases cond <;> simp [require]

@[simp] theorem refuse_eq_ok {offender : Option α} {e : α → ε} {u : Unit} :
    refuse offender e = .ok u ↔ offender = none := by
  cases offender <;> simp [refuse]

@[simp] theorem okOr_eq_ok {o : Option α} {e : ε} {a : α} : okOr o e = .ok a ↔ o = some a := by
  cases o <;> simp [okOr]

@[simp] theorem withError_eq_ok {ε' : Type} {r : Except ε' α} {e : ε} {a : α} :
    withError r e = .ok a ↔ r = .ok a := by
  cases r <;> simp [withError]

theorem forM_eq_ok {f : α → Except ε PUnit} {l : List α} {u : PUnit} :
    l.forM f = .ok u ↔ ∀ a ∈ l, f a = .ok () := by
  induction l with
  | nil => simp [List.forM, pure, Except.pure]
  | cons a l ih =>
    have hcons : (a :: l).forM f = (f a >>= fun _ => l.forM f) := rfl
    rw [hcons, bind_eq_ok, List.forall_mem_cons]
    constructor
    · rintro ⟨_, ha, hl⟩
      exact ⟨ha, ih.mp hl⟩
    · rintro ⟨ha, hl⟩
      exact ⟨(), ha, ih.mpr hl⟩

/-- Every step of a fold that succeeds has succeeded. -/
theorem ok_of_foldlM {f : β → α → Except ε β} {l : List α} {b c : β} (h : l.foldlM f b = .ok c)
    {a : α} (ha : a ∈ l) : ∃ b' c', f b' a = .ok c' := by
  induction l generalizing b with
  | nil => cases ha
  | cons x l ih =>
    rw [List.foldlM_cons] at h
    obtain ⟨next, hstep, hrest⟩ := bind_eq_ok.mp h
    rcases List.mem_cons.mp ha with rfl | ha
    · exact ⟨b, next, hstep⟩
    · exact ih hrest ha

/-- What every step keeps that succeeds is kept by a fold that succeeds. -/
theorem foldlM_invariant {f : β → α → Except ε β} {I : β → Prop} {l : List α} {b c : β}
    (hstep : ∀ b a b', f b a = .ok b' → I b → I b') (h : l.foldlM f b = .ok c) (hb : I b) :
    I c := by
  induction l generalizing b with
  | nil =>
    have hbc : b = c := Except.ok.inj h
    rwa [← hbc]
  | cons a l ih =>
    rw [List.foldlM_cons] at h
    obtain ⟨next, hnext, hrest⟩ := bind_eq_ok.mp h
    exact ih hrest (hstep b a next hnext hb)

/-- Both fail with the same error, or both succeed with related values. -/
inductive SameOutcome {β : Type} (r : α → β → Prop) : Except ε α → Except ε β → Prop
  | ok {a : α} {b : β} (h : r a b) : SameOutcome r (.ok a) (.ok b)
  | error (e : ε) : SameOutcome r (.error e) (.error e)

namespace SameOutcome

theorem bind {α' β' : Type} {r : α → β → Prop} {r' : α' → β' → Prop} {x : Except ε α}
    {y : Except ε β} {f : α → Except ε α'} {g : β → Except ε β'} (h : SameOutcome r x y)
    (hf : ∀ a b, r a b → SameOutcome r' (f a) (g b)) : SameOutcome r' (x >>= f) (y >>= g) := by
  cases h with
  | ok h => exact hf _ _ h
  | error e => exact .error e

/-- What goes before may depend on what the two sides agree on. -/
theorem bind_same {α' β' : Type} {r' : α' → β' → Prop} {x : Except ε α} {f : α → Except ε α'}
    {g : α → Except ε β'} (hf : ∀ a, SameOutcome r' (f a) (g a)) :
    SameOutcome r' (x >>= f) (x >>= g) := by
  cases x with
  | error e => exact .error e
  | ok a => exact hf a

theorem mapError {ε' : Type} {r : α → β → Prop} {x : Except ε α} {y : Except ε β} (f : ε → ε')
    (h : SameOutcome r x y) : SameOutcome r (x.mapError f) (y.mapError f) := by
  cases h with
  | ok h => exact .ok h
  | error e => exact .error (f e)

theorem map {α' β' : Type} {r : α → β → Prop} {r' : α' → β' → Prop} {x : Except ε α}
    {y : Except ε β} {f : α → α'} {g : β → β'} (h : SameOutcome r x y)
    (hf : ∀ a b, r a b → r' (f a) (g b)) : SameOutcome r' (x.map f) (y.map g) := by
  cases h with
  | ok h => exact .ok (hf _ _ h)
  | error e => exact .error e

theorem toOption {r : α → β → Prop} {x : Except ε α} {y : Except ε β} (h : SameOutcome r x y) :
    Option.Rel r x.toOption y.toOption := by
  cases h with
  | ok h => exact .some h
  | error e => exact .none

end SameOutcome

end Boule
