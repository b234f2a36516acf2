import Boule.Lib.Run
import Boule.Lib.Table

/-! What a cache of bounded size holds: whatever came in since it was last emptied. -/
namespace Boule

/-- The key of the entry that makes room for another one when the table is full. -/
def Table.victim {K V R : Type} [DecidableEq K] [LinearOrder R] (t : Table K V) (capacity : ℕ)
    (rank : K → V → R) : Option K :=
  if t.size < capacity then none else (t.minBy rank).map Prod.fst

theorem Table.containsKey_of_victim {K V R : Type} [DecidableEq K] [LinearOrder R]
    {t : Table K V} {capacity : ℕ} {rank : K → V → R} {k : K}
    (h : t.victim capacity rank = some k) : t.containsKey k = true := by
  unfold victim at h
  split_ifs at h
  obtain ⟨⟨k', v⟩, hmin, rfl⟩ := Option.map_eq_some_iff.mp h
  have hmem := List.argmin_mem (Option.mem_def.mpr hmin)
  exact (containsKey_iff _ _).mpr ⟨v, (mem_toList _ _ _).mp hmem⟩

section
variable {σ α β : Type} (step : σ → α → σ) (adds : σ → α → List β)

/-- What the steps of a run bring in, the latest first. -/
def gathered : σ → List α → List β
  | _, [] => []
  | s, a :: inputs => gathered (step s a) inputs ++ adds s a

/-- `Q` holds of some input and of the state it meets. -/
def Sometime (Q : σ → α → Prop) : σ → List α → Prop
  | _, [] => False
  | s, a :: inputs => Q s a ∨ Sometime Q (step s a) inputs

/-- A stretch of the run whose steps all keep what they find brings in enough. -/
def Within (keeps : σ → α → Prop) (enough : List β → Prop) (s : σ) (inputs : List α) : Prop :=
  ∃ before during after, inputs = before ++ during ++ after ∧
    Along step keeps (run step s before) during ∧
    enough (gathered step adds (run step s before) during)

end

section
variable {σ α β : Type} {step : σ → α → σ} {adds : σ → α → List β} {keeps : σ → α → Prop}
  {Q R : σ → α → Prop} {s : σ} {inputs inputs' : List α}

theorem Along.concat {a : α} (h : Along step Q s inputs) (ha : Q (run step s inputs) a) :
    Along step Q s (inputs ++ [a]) := by
  induction inputs generalizing s with
  | nil => exact ⟨ha, trivial⟩
  | cons b inputs ih => exact ⟨h.1, ih h.2 ha⟩

theorem gathered_concat (s : σ) (inputs : List α) (a : α) :
    gathered step adds s (inputs ++ [a]) =
      adds (run step s inputs) a ++ gathered step adds s inputs := by
  induction inputs generalizing s with
  | nil => simp [gathered]
  | cons b inputs ih => rw [List.cons_append, gathered, ih, gathered, run_cons, List.append_assoc]

theorem sometime_iff : Sometime step Q s inputs ↔
    ∃ before a after, inputs = before ++ a :: after ∧ Q (run step s before) a := by
  induction inputs generalizing s with
  | nil => simp [Sometime]
  | cons b inputs ih =>
    rw [Sometime, ih]
    constructor
    · rintro (hb | ⟨before, a, after, rfl, ha⟩)
      · exact ⟨[], b, inputs, rfl, hb⟩
      · exact ⟨b :: before, a, after, rfl, ha⟩
    · rintro ⟨before, a, after, he, ha⟩
      cases before with
      | nil =>
        obtain ⟨rfl, rfl⟩ := List.cons.inj he
        exact .inl ha
      | cons c before =>
        obtain ⟨rfl, rfl⟩ := List.cons.inj he
        exact .inr ⟨before, a, after, rfl, ha⟩

theorem Sometime.append (h : Sometime step Q s inputs) (inputs' : List α) :
    Sometime step Q s (inputs ++ inputs') := by
  induction inputs generalizing s with
  | nil => exact h.elim
  | cons a inputs ih => exact h.imp id ih

theorem Sometime.mono (h : Sometime step Q s inputs) (hQR : ∀ s a, Q s a → R s a) :
    Sometime step R s inputs := by
  induction inputs generalizing s with
  | nil => exact h.elim
  | cons a inputs ih => exact h.imp (hQR s a) ih

theorem along_not_iff : Along step (fun s a => ¬ Q s a) s inputs ↔ ¬ Sometime step Q s inputs := by
  induction inputs generalizing s with
  | nil => exact iff_of_true trivial id
  | cons a inputs ih =>
    rw [Along, Sometime, ih, not_or]

/-- What holds at the end of a run and not at its start was brought about by one of its steps. -/
theorem Sometime.of_change {I G : σ → Prop} (h : Along step R s inputs)
    (hinv : ∀ s a, R s a → I s → I (step s a))
    (hstep : ∀ s a, R s a → I s → G (step s a) → G s ∨ Q s a) (hs : I s)
    (hend : G (run step s inputs)) : G s ∨ Sometime step Q s inputs := by
  induction inputs generalizing s with
  | nil => exact .inl hend
  | cons a inputs ih =>
    rcases ih h.2 (hinv s a h.1 hs) hend with hnext | hlater
    · exact (hstep s a h.1 hs hnext).imp id .inl
    · exact .inr (.inr hlater)

/-- Steps that keep what they find leave it with all they brought in. -/
theorem content_of_keeps {C : σ → List β}
    (hkeep : ∀ s a, keeps s a → C (step s a) = adds s a ++ C s)
    (h : Along step keeps s inputs) :
    C (run step s inputs) = gathered step adds s inputs ++ C s := by
  induction inputs generalizing s with
  | nil => rfl
  | cons a inputs ih =>
    rw [run_cons, ih h.2, hkeep s a h.1, gathered, List.append_assoc]

/-- What is found at the end of a run came in since the last step that kept nothing. -/
theorem content_since {C : σ → List β}
    (hkeep : ∀ s a, keeps s a → C (step s a) = adds s a ++ C s)
    (hdrop : ∀ s a, ¬ keeps s a → C (step s a) = []) (hs : C s = [])
    (inputs : List α) : ∃ before during, inputs = before ++ during ∧
      Along step keeps (run step s before) during ∧
      C (run step s inputs) = gathered step adds (run step s before) during := by
  induction inputs using List.reverseRecOn with
  | nil => exact ⟨[], [], rfl, trivial, hs⟩
  | append_singleton inputs a ih =>
    obtain ⟨before, during, rfl, hkept, hcontent⟩ := ih
    rw [run_append] at hcontent
    by_cases ha : keeps (run step s (before ++ during)) a
    · rw [run_append] at ha
      refine ⟨before, during ++ [a], by simp, hkept.concat ha, ?_⟩
      rw [gathered_concat, run_append, run_append, run_cons, run_nil, hkeep _ a ha, hcontent]
    · refine ⟨before ++ during ++ [a], [], by simp, trivial, ?_⟩
      rw [run_append, run_cons, run_nil, hdrop _ a ha]
      rfl

end

end Boule
