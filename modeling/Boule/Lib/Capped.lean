import Mathlib.Data.List.Nodup

/-! Filling a list from another one, each key once and up to a number of elements. -/
namespace Boule.Capped

variable {α K : Type} [DecidableEq K] (key : α → K) {cap : ℕ} {out l : List α} {a : α}

def addNew (out : List α) (a : α) : List α :=
  if out.any (key · = key a) then out else out ++ [a]

def addNewUpTo (cap : ℕ) (out : List α) (a : α) : List α :=
  if cap ≤ out.length then out else addNew key out a

variable {key}

theorem addNew_cases (key : α → K) (out : List α) (a : α) :
    addNew key out a = out ∧ key a ∈ out.map key ∨
      addNew key out a = out ++ [a] ∧ key a ∉ out.map key := by
  unfold addNew
  by_cases h : out.any (key · = key a) = true
  · rw [if_pos h]
    simp only [List.any_eq_true, decide_eq_true_iff] at h
    exact .inl ⟨rfl, List.mem_map.mpr h⟩
  · rw [if_neg h]
    simp only [List.any_eq_true, decide_eq_true_iff] at h
    exact .inr ⟨rfl, fun hin => h (List.mem_map.mp hin)⟩

/-- What is added comes in the order of the second list, and none of it was there before. -/
theorem foldl_addNew_eq (key : α → K) (out l : List α) : ∃ rest, l.foldl (addNew key) out =
    out ++ rest ∧ rest.Sublist l ∧ ∀ a ∈ rest, key a ∉ out.map key := by
  induction l generalizing out with
  | nil => exact ⟨[], (List.append_nil out).symm, .slnil, by simp⟩
  | cons a l ih =>
    rw [List.foldl_cons]
    rcases addNew_cases key out a with ⟨he, -⟩ | ⟨he, hnew⟩
    · obtain ⟨rest, hrest, hsub, hout⟩ := ih out
      rw [he]
      exact ⟨rest, hrest, hsub.cons a, hout⟩
    · obtain ⟨rest, hrest, hsub, hout⟩ := ih (out ++ [a])
      rw [he, hrest, List.append_assoc, List.singleton_append]
      refine ⟨a :: rest, rfl, hsub.cons_cons a, ?_⟩
      intro x hx
      rcases List.mem_cons.mp hx with rfl | hx
      · exact hnew
      · intro hin
        refine hout x hx ?_
        rw [List.map_append]
        exact List.mem_append_left _ hin

theorem nodup_foldl_addNew (h : (out.map key).Nodup) :
    ((l.foldl (addNew key) out).map key).Nodup := by
  induction l generalizing out with
  | nil => exact h
  | cons a l ih =>
    refine ih ?_
    rcases addNew_cases key out a with ⟨he, -⟩ | ⟨he, hnew⟩
    · rw [he]
      exact h
    · rw [he, List.map_append, List.map_singleton]
      exact List.nodup_append.mpr ⟨h, List.nodup_singleton _, by
        intro x hx y hy hxy
        rw [List.mem_singleton.mp hy] at hxy
        exact hnew (hxy ▸ hx)⟩

theorem mem_foldl_addNew {k : K} :
    k ∈ (l.foldl (addNew key) out).map key ↔ k ∈ out.map key ∨ k ∈ l.map key := by
  induction l generalizing out with
  | nil => simp
  | cons a l ih =>
    rw [List.foldl_cons, ih, List.map_cons, List.mem_cons]
    rcases addNew_cases key out a with ⟨he, hin⟩ | ⟨he, -⟩
    · rw [he]
      constructor
      · rintro (h | h)
        · exact .inl h
        · exact .inr (.inr h)
      · rintro (h | rfl | h)
        · exact .inl h
        · exact .inl hin
        · exact .inr h
    · rw [he, List.map_append, List.map_singleton, List.mem_append, List.mem_singleton, or_assoc]

theorem foldl_addNewUpTo_of_full (h : cap ≤ out.length) :
    l.foldl (addNewUpTo key cap) out = out := by
  induction l with
  | nil => rfl
  | cons a l ih => rw [List.foldl_cons, addNewUpTo, if_pos h, ih]

/-- Filling up to a number is the start of filling without one. -/
theorem foldl_addNewUpTo (h : out.length ≤ cap) :
    l.foldl (addNewUpTo key cap) out = (l.foldl (addNew key) out).take cap := by
  induction l generalizing out with
  | nil => exact (List.take_of_length_le h).symm
  | cons a l ih =>
    by_cases hfull : cap ≤ out.length
    · have hlen : out.length = cap := by omega
      obtain ⟨rest, hrest, -⟩ := foldl_addNew_eq key out (a :: l)
      rw [foldl_addNewUpTo_of_full hfull, hrest, ← hlen, List.take_left]
    · rw [List.foldl_cons, List.foldl_cons, addNewUpTo, if_neg hfull]
      refine ih ?_
      rcases addNew_cases key out a with ⟨he, -⟩ | ⟨he, -⟩
      · rw [he]
        exact h
      · rw [he, List.length_append, List.length_singleton]
        omega

/-- It does not matter for the start whether what is filled was cut before. -/
theorem foldl_addNewUpTo_take :
    l.foldl (addNewUpTo key cap) (out.take cap) = (l.foldl (addNew key) out).take cap := by
  by_cases hlen : out.length ≤ cap
  · rw [List.take_of_length_le hlen, foldl_addNewUpTo hlen]
  · have htake : (out.take cap).length = cap := by
      rw [List.length_take]
      omega
    obtain ⟨rest, hrest, -⟩ := foldl_addNew_eq key out l
    rw [foldl_addNewUpTo_of_full (Nat.le_of_eq htake.symm), hrest,
      List.take_append_of_le_length (by omega)]

/-- The keys of what is filled depend on the keys alone. -/
theorem map_foldl_addNewUpTo :
    (l.foldl (addNewUpTo key cap) out).map key =
      (l.map key).foldl (addNewUpTo id cap) (out.map key) := by
  have hstep : ∀ (out : List α) (a : α), (addNewUpTo key cap out a).map key =
      addNewUpTo id cap (out.map key) (key a) := by
    intro out a
    have hlen : (out.map key).length = out.length := List.length_map _
    have hany : (out.map key).any (id · = id (key a)) = out.any (key · = key a) := List.any_map
    unfold addNewUpTo addNew
    rw [hlen, hany]
    split_ifs
    · rfl
    · rfl
    · exact List.map_append
  induction l generalizing out with
  | nil => rfl
  | cons a l ih => rw [List.foldl_cons, List.map_cons, List.foldl_cons, ih, hstep]

end Boule.Capped
