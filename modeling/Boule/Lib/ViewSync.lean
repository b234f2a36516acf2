import Boule.Lib.Quorum
import Mathlib.Data.Finset.Insert

/-! View synchronisation by votes: a party goes past a view that enough voters have given up, and
into a view that some voters have reached. -/
namespace Boule

/-- Which voters end a view together, and which show that it has been reached. -/
structure ViewRule (ι : Type) where
  ends : Finset ι → Prop
  begins : Finset ι → Prop
  ends_mono : ∀ {A B : Finset ι}, A ⊆ B → ends A → ends B
  begins_mono : ∀ {A B : Finset ι}, A ⊆ B → begins A → begins B
  begins_of_ends : ∀ {A : Finset ι}, ends A → begins A
  not_begins_empty : ¬ begins ∅

/-- What a party has heard: who votes to end a view, and which views have a certificate. -/
structure ViewLog (ι : Type) where
  voters : ℕ → Finset ι
  told : List ℕ

namespace ViewLog
variable {ι : Type}

def empty : ViewLog ι := ⟨fun _ => ∅, []⟩

instance : LE (ViewLog ι) := ⟨fun l l' => (∀ u, l.voters u ⊆ l'.voters u) ∧ l.told ⊆ l'.told⟩

theorem le_refl (l : ViewLog ι) : l ≤ l := ⟨fun _ => Finset.Subset.refl _, List.Subset.refl _⟩

/-- The log takes a party to the view, or further. -/
def Pushes (q : ViewRule ι) (l : ViewLog ι) (w : ℕ) : Prop :=
  (∃ u, w ≤ u + 1 ∧ (u ∈ l.told ∨ q.ends (l.voters u))) ∨ ∃ u, w ≤ u ∧ q.begins (l.voters u)

/-- The view is the one that the log takes a party to. -/
def Places (q : ViewRule ι) (l : ViewLog ι) (view : ℕ) : Prop :=
  ∀ w, w ≤ view ↔ w = 0 ∨ l.Pushes q w

variable {q : ViewRule ι} {l l' : ViewLog ι} {u v w : ℕ}

theorem Pushes.mono (hle : l ≤ l') (h : l.Pushes q w) : l'.Pushes q w := by
  rcases h with ⟨u, hu, htold | hends⟩ | ⟨u, hu, hbegins⟩
  · exact .inl ⟨u, hu, .inl (hle.2 htold)⟩
  · exact .inl ⟨u, hu, .inr (q.ends_mono (hle.1 u) hends)⟩
  · exact .inr ⟨u, hu, q.begins_mono (hle.1 u) hbegins⟩

theorem not_pushes_empty : ¬ (empty : ViewLog ι).Pushes q w := by
  rintro (⟨u, -, htold | hends⟩ | ⟨u, -, hbegins⟩)
  · cases htold
  · exact q.not_begins_empty (q.begins_of_ends hends)
  · exact q.not_begins_empty hbegins

theorem places_empty : (empty : ViewLog ι).Places q 0 := by
  intro w
  rw [Nat.le_zero]
  exact ⟨.inl, fun h => h.resolve_right not_pushes_empty⟩

theorem Places.unique (h : l.Places q v) (h' : l.Places q w) : v = w :=
  Nat.le_antisymm ((h' v).mpr ((h v).mp le_rfl)) ((h w).mpr ((h' w).mp le_rfl))

theorem Places.congr (h : l.Places q v) (hvoters : ∀ u, l'.voters u = l.voters u)
    (htold : ∀ u, u ∈ l'.told ↔ u ∈ l.told) : l'.Places q v := by
  intro w
  rw [h w]
  unfold Pushes
  simp only [hvoters, htold]

theorem Places.lt_of_told (h : l.Places q v) (hu : u ∈ l.told) : u < v :=
  (h (u + 1)).mpr (.inr (.inl ⟨u, le_rfl, .inl hu⟩))

theorem Places.lt_of_ends (h : l.Places q v) (hu : q.ends (l.voters u)) : u < v :=
  (h (u + 1)).mpr (.inr (.inl ⟨u, le_rfl, .inr hu⟩))

theorem Places.le_of_begins (h : l.Places q v) (hu : q.begins (l.voters u)) : u ≤ v :=
  (h u).mpr (.inr (.inr ⟨u, le_rfl, hu⟩))

/-- The place after a log has grown: the old one, or the one that the growth accounts for. -/
theorem Places.grow (h : l.Places q v) (hle : l ≤ l') (hvw : v ≤ w)
    (hreach : w = v ∨ l'.Pushes q w)
    (hends : ∀ u, u ∈ l'.told ∨ q.ends (l'.voters u) → u < w)
    (hbegins : ∀ u, q.begins (l'.voters u) → u ≤ w) : l'.Places q w := by
  intro x
  constructor
  · intro hx
    rcases hreach with rfl | hpush
    · exact ((h x).mp hx).imp_right fun hp => hp.mono hle
    · refine .inr ?_
      rcases hpush with ⟨u, hu, hcert⟩ | ⟨u, hu, hb⟩
      · exact .inl ⟨u, hx.trans hu, hcert⟩
      · exact .inr ⟨u, hx.trans hu, hb⟩
  · rintro (rfl | ⟨u, hu, hcert⟩ | ⟨u, hu, hb⟩)
    · exact Nat.zero_le _
    · exact hu.trans (hends u hcert)
    · exact hu.trans (hbegins u hb)

/-- Votes for a view that is over take a party nowhere. -/
theorem Places.stay (h : l.Places q v) (hle : l ≤ l') (htold : l'.told = l.told)
    (hvoters : ∀ u, v ≤ u → l'.voters u = l.voters u) : l'.Places q v := by
  refine h.grow hle le_rfl (.inl rfl) (fun u => ?_) fun u hb => ?_
  · rintro (hcert | hends)
    · exact h.lt_of_told (htold ▸ hcert)
    · by_contra hu
      rw [hvoters u (Nat.le_of_not_lt hu)] at hends
      exact hu (h.lt_of_ends hends)
  · by_contra hu
    rw [hvoters u (Nat.le_of_not_le hu)] at hb
    exact hu (h.le_of_begins hb)

/-- Where the votes for one view that is not over have grown, they alone account for the move. -/
theorem Places.hear [Decidable (q.ends (l'.voters u))] [Decidable (q.begins (l'.voters u))]
    (h : l.Places q v) (hle : l ≤ l') (htold : l'.told = l.told) (hu : v ≤ u)
    (hother : ∀ x, x ≠ u → l'.voters x = l.voters x) :
    l'.Places q (if q.ends (l'.voters u) then u + 1 else if q.begins (l'.voters u) then u
      else v) := by
  have hcert : ∀ x, x ∈ l'.told ∨ q.ends (l'.voters x) → x < v ∨ x = u ∧ q.ends (l'.voters u) := by
    rintro x (hx | hx)
    · exact .inl (h.lt_of_told (htold ▸ hx))
    · by_cases hxu : x = u
      · exact .inr ⟨hxu, hxu ▸ hx⟩
      · exact .inl (h.lt_of_ends (hother x hxu ▸ hx))
  have hbegun : ∀ x, q.begins (l'.voters x) → x ≤ v ∨ x = u ∧ q.begins (l'.voters u) := by
    intro x hx
    by_cases hxu : x = u
    · exact .inr ⟨hxu, hxu ▸ hx⟩
    · exact .inl (h.le_of_begins (hother x hxu ▸ hx))
  split_ifs with hends hbegins
  · refine h.grow hle (by omega) (.inr (.inl ⟨u, le_rfl, .inr hends⟩)) (fun x hx => ?_)
      fun x hx => ?_
    · have hx := hcert x hx
      omega
    · have hx := hbegun x hx
      omega
  · refine h.grow hle hu (.inr (.inr ⟨u, le_rfl, hbegins⟩)) (fun x hx => ?_) fun x hx => ?_
    · have hx := (hcert x hx).resolve_right fun hx => hends hx.2
      omega
    · have hx := hbegun x hx
      omega
  · refine h.grow hle le_rfl (.inl rfl) (fun x hx => ?_) fun x hx => ?_
    · exact (hcert x hx).resolve_right fun hx => hends hx.2
    · exact (hbegun x hx).resolve_right fun hx => hbegins hx.2

/-- A certificate takes a party past its view. -/
theorem Places.tell (h : l.Places q v) (hvoters : ∀ x, l'.voters x = l.voters x)
    (htold : ∀ x, x ∈ l'.told ↔ x = u ∨ x ∈ l.told) : l'.Places q (max v (u + 1)) := by
  have hle : l ≤ l' := ⟨fun x => (hvoters x).symm.subset, fun x hx => (htold x).mpr (.inr hx)⟩
  have hself : u ∈ l'.told := (htold u).mpr (.inl rfl)
  refine h.grow hle (le_max_left ..) ?_ (fun x => ?_) fun x hx => ?_
  · rcases Nat.le_total v (u + 1) with hvu | hvu
    · rw [max_eq_right hvu]
      exact .inr (.inl ⟨u, le_rfl, .inl hself⟩)
    · exact .inl (max_eq_left hvu)
  · rintro (hx | hx)
    · rcases (htold x).mp hx with rfl | hx
      · exact (Nat.lt_succ_self x).trans_le (le_max_right ..)
      · exact (h.lt_of_told hx).trans_le (le_max_left ..)
    · rw [hvoters] at hx
      exact (h.lt_of_ends hx).trans_le (le_max_left ..)
  · rw [hvoters] at hx
    exact (h.le_of_begins hx).trans (le_max_left ..)

end ViewLog

/-! ### Many parties -/

namespace ViewSync
variable {ι : Type} (q : ViewRule ι) (honest : Set ι)

/-- Honest voters give up only views that they have reached. -/
def Earnest (views : ι → ℕ) (logs : ι → ViewLog ι) : Prop :=
  ∀ i ∈ honest, ∀ u, ∀ r ∈ (logs i).voters u, r ∈ honest → u ≤ views r

/-- An honest party knows a reason to go past the view. -/
def Passed (logs : ι → ViewLog ι) (u : ℕ) : Prop :=
  ∃ i ∈ honest, (∃ v, u ≤ v ∧ v ∈ (logs i).told) ∨ q.ends ((logs i).voters u)

/-- Honest parties are only past views that there was a reason to go past. -/
def Backed (views : ι → ℕ) (logs : ι → ViewLog ι) : Prop :=
  ∀ i ∈ honest, ∀ u < views i, Passed q honest logs u

variable {q honest} {views views' : ι → ℕ} {logs logs' : ι → ViewLog ι}

theorem Passed.mono {u : ℕ} (hle : ∀ i ∈ honest, logs i ≤ logs' i) (h : Passed q honest logs u) :
    Passed q honest logs' u := by
  obtain ⟨i, hi, ⟨v, hv, htold⟩ | hends⟩ := h
  · exact ⟨i, hi, .inl ⟨v, hv, (hle i hi).2 htold⟩⟩
  · exact ⟨i, hi, .inr (q.ends_mono ((hle i hi).1 u) hends)⟩

/-- Where every view that is shown to have been reached has an honest voter, who has got there
before, a party that follows its log stays among views that there was a reason to go past. -/
theorem Backed.step (hhonest : ∀ A, q.begins A → ∃ r ∈ A, r ∈ honest)
    (hle : ∀ i ∈ honest, logs i ≤ logs' i) (hearnest : Earnest honest views logs')
    (hfollow : ∀ i ∈ honest, ∀ w, w ≤ views' i → w ≤ views i ∨ (logs' i).Pushes q w)
    (h : Backed q honest views logs) : Backed q honest views' logs' := by
  have hreached : ∀ i ∈ honest, ∀ u v, u < v → q.begins ((logs' i).voters v) →
      Passed q honest logs' u := by
    intro i hi u v huv hbegins
    obtain ⟨r, hr, hrh⟩ := hhonest _ hbegins
    exact (h r hrh u (huv.trans_le (hearnest i hi v r hr hrh))).mono hle
  intro i hi u hu
  rcases hfollow i hi (u + 1) hu with hold | ⟨v, huv, htold | hends⟩ | ⟨v, huv, hbegins⟩
  · exact (h i hi u hold).mono hle
  · exact ⟨i, hi, .inl ⟨v, Nat.le_of_succ_le_succ huv, htold⟩⟩
  · rcases Nat.eq_or_lt_of_le (Nat.le_of_succ_le_succ huv) with rfl | hlt
    · exact ⟨i, hi, .inr hends⟩
    · exact hreached i hi u v hlt (q.begins_of_ends hends)
  · exact hreached i hi u v huv hbegins

/-- Parties that share what they hear, and that all give up the views they are stuck in, are all
past the view. -/
theorem all_past (hends : ∀ A : Finset ι, (∀ r ∈ honest, r ∈ A) → q.ends A) {k : ℕ}
    (hplaces : ∀ i ∈ honest, (logs i).Places q (views i)) (hbacked : Backed q honest views logs)
    (hvoters : ∀ i ∈ honest, ∀ j ∈ honest, ∀ u ≤ k, (logs i).voters u ⊆ (logs j).voters u)
    (htold : ∀ i ∈ honest, ∀ j ∈ honest, (logs i).told ⊆ (logs j).told)
    (hvote : ∀ i ∈ honest, views i ≤ k → ∀ j ∈ honest, i ∈ (logs j).voters (views i)) :
    ∀ i ∈ honest, k < views i := by
  have hclimb : ∀ u ≤ k + 1, ∀ i ∈ honest, u ≤ views i := by
    intro u
    induction u with
    | zero => exact fun _ _ _ => Nat.zero_le _
    | succ u ih =>
      intro hu i hi
      have hreached := ih (by omega)
      by_cases hahead : ∃ j ∈ honest, u < views j
      · -- whoever is past the view knows a reason, and so does everybody else
        obtain ⟨j, hj, hlt⟩ := hahead
        obtain ⟨m, hm, ⟨v, hv, hcert⟩ | hquorum⟩ := hbacked j hj u hlt
        · exact Nat.lt_of_le_of_lt hv ((hplaces i hi).lt_of_told (htold m hm i hi hcert))
        · exact (hplaces i hi).lt_of_ends (q.ends_mono (hvoters m hm i hi u (by omega)) hquorum)
      · -- nobody is past the view, so that everybody gives it up
        push Not at hahead
        refine (hplaces i hi).lt_of_ends (hends _ fun r hr => ?_)
        have hat : views r = u := Nat.le_antisymm (hahead r hr) (hreached r hr)
        have hvoted := hvote r hr (by omega) i hi
        rwa [hat] at hvoted
  exact fun i hi => hclimb (k + 1) le_rfl i hi

/-- The voter may still be heard by the party, or has been, without a new view, a new certificate or
a dishonest vote: its vote has been cast, or is one for the view in which an honest voter is. -/
def Audible (honest : Set ι) (views : ι → ℕ) (sent : ℕ → Set ι) (l : ViewLog ι) (u : ℕ) (r : ι) :
    Prop :=
  r ∈ l.voters u ∨ r ∈ sent u ∨ r ∈ honest ∧ views r = u

variable (q honest) in
/-- All that the honest parties may still hear takes none of them on. -/
def Stuck (views : ι → ℕ) (sent : ℕ → Set ι) (logs : ι → ViewLog ι) : Prop :=
  ∀ i ∈ honest, ∀ u, ∀ A : Finset ι, (∀ r ∈ A, Audible honest views sent (logs i) u r) →
    (views i ≤ u → ¬ q.ends A) ∧ (views i < u → ¬ q.begins A)

variable {sent sent' : ℕ → Set ι}

/-- Parties that are stuck stay where they are. -/
theorem Stuck.views_eq (h : Stuck q honest views sent logs)
    (hplaces : ∀ i ∈ honest, (logs i).Places q (views i))
    (hplaces' : ∀ i ∈ honest, (logs' i).Places q (views' i))
    (hle : ∀ i ∈ honest, logs i ≤ logs' i)
    (htold : ∀ i ∈ honest, (logs' i).told ⊆ (logs i).told)
    (hvoters : ∀ i ∈ honest, ∀ u, ∀ r ∈ (logs' i).voters u,
      Audible honest views sent (logs i) u r) : ∀ i ∈ honest, views' i = views i := by
  intro i hi
  apply Nat.le_antisymm
  · rcases (hplaces' i hi (views' i)).mp le_rfl with
      hzero | ⟨u, hu, hcert | hends⟩ | ⟨u, hu, hbegins⟩
    · omega
    · have hlt := (hplaces i hi).lt_of_told (htold i hi hcert)
      omega
    · have hlt := mt (h i hi u _ (hvoters i hi u)).1 (not_not.mpr hends)
      omega
    · have hle' := mt (h i hi u _ (hvoters i hi u)).2 (not_not.mpr hbegins)
      omega
  · rw [hplaces' i hi]
    exact ((hplaces i hi (views i)).mp le_rfl).imp_right fun hp => hp.mono (hle i hi)

theorem Stuck.step (h : Stuck q honest views sent logs)
    (hviews : ∀ i ∈ honest, views' i = views i)
    (hvoters : ∀ i ∈ honest, ∀ u, ∀ r ∈ (logs' i).voters u,
      Audible honest views sent (logs i) u r)
    (hsent : ∀ u, ∀ r ∈ sent' u, r ∈ sent u ∨ r ∈ honest ∧ views r = u) :
    Stuck q honest views' sent' logs' := by
  intro i hi u A hA
  rw [hviews i hi]
  refine h i hi u A fun r hr => ?_
  rcases hA r hr with hvoter | hcast | ⟨hrh, hat⟩
  · exact hvoters i hi u r hvoter
  · exact .inr (hsent u r hcast)
  · exact .inr (.inr ⟨hrh, (hviews r hrh).symm.trans hat⟩)

end ViewSync

end Boule
