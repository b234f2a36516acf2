import Boule.Lib.Run
import Mathlib.Data.List.Basic

/-! Counters that keep a message from being taken twice. -/
namespace Boule.ReplayGuard

section
variable {σ α β : Type} (step : σ → α → σ) (takes : σ → α → Option β)

/-- What the steps of a run take, in order. -/
def taken : σ → List α → List β
  | _, [] => []
  | s, a :: inputs => (takes s a).toList ++ taken (step s a) inputs

end

section
variable {σ α β K : Type} {step : σ → α → σ} {takes : σ → α → Option β} {seq : σ → K → ℕ}
  {key : β → K} {num : β → ℕ} {s : σ} {inputs : List α}

/-- A message is taken only if its number is above the counter, which is then raised to it. -/
def RaisesCounter (step : σ → α → σ) (takes : σ → α → Option β) (seq : σ → K → ℕ) (key : β → K)
    (num : β → ℕ) : Prop :=
  ∀ s a m, takes s a = some m → seq s (key m) < num m ∧ seq (step s a) (key m) = num m

/-- Counters that never fall stay below what is taken later. -/
theorem seq_lt_of_taken (hguard : RaisesCounter step takes seq key num)
    (h : Along step (fun s a => ∀ k, seq s k ≤ seq (step s a) k) s inputs) {m : β}
    (hm : m ∈ taken step takes s inputs) : seq s (key m) < num m := by
  induction inputs generalizing s with
  | nil => cases hm
  | cons a inputs ih =>
    rcases List.mem_append.mp hm with hm | hm
    · exact (hguard s a m (Option.mem_toList.mp hm)).1
    · exact Nat.lt_of_le_of_lt (h.1 (key m)) (ih h.2 hm)

/-- What is taken under one key has rising numbers. -/
theorem pairwise_taken (hguard : RaisesCounter step takes seq key num)
    (h : Along step (fun s a => ∀ k, seq s k ≤ seq (step s a) k) s inputs) :
    (taken step takes s inputs).Pairwise fun m m' => key m = key m' → num m < num m' := by
  induction inputs generalizing s with
  | nil => exact .nil
  | cons a inputs ih =>
    rw [taken, List.pairwise_append]
    refine ⟨?_, ih h.2, ?_⟩
    · cases takes s a with
      | none => exact .nil
      | some m => exact List.pairwise_singleton _ m
    · intro m hm m' hm' hkey
      have hraised := (hguard s a m (Option.mem_toList.mp hm)).2
      have hlater := seq_lt_of_taken hguard h.2 hm'
      rwa [← hkey, hraised] at hlater

theorem nodup_taken (hguard : RaisesCounter step takes seq key num)
    (h : Along step (fun s a => ∀ k, seq s k ≤ seq (step s a) k) s inputs) :
    (taken step takes s inputs).Nodup :=
  (pairwise_taken hguard h).imp fun hlt he => by
    rw [he] at hlt
    exact Nat.lt_irrefl _ (hlt rfl)

end

end Boule.ReplayGuard
