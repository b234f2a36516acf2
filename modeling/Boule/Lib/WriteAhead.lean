import Mathlib.Data.List.Basic
import Mathlib.Order.Basic

/-! Levels that are written ahead. A process raises a level in memory and writes it to disk in
batches; each message it sends needs a level, and a crash leaves the level on disk. -/
namespace Boule.WriteAhead

variable {α : Type}

inductive Entry (α : Type) where
  | write (level : α)
  | send (need : α)

def Entry.level? : Entry α → Option α
  | write level => some level
  | send _ => none

/-- Levels that are buffered, and entries still to be carried out. -/
structure Task (α : Type) where
  buffered : List α
  rest : List (Entry α)

def writes (entries : List (Entry α)) : List α := entries.filterMap Entry.level?

def Task.unwritten (t : Task α) : List α := t.buffered ++ writes t.rest

/-- The levels still to be written, in the order of the writes: the innermost task first. -/
def unwritten (tasks : List (Task α)) : List α := tasks.flatMap Task.unwritten

theorem getLastD_append (d : α) (levels later : List α) :
    (levels ++ later).getLastD d = later.getLastD (levels.getLastD d) := by
  induction levels generalizing d with
  | nil => rfl
  | cons k ks ih => rw [List.cons_append, List.getLastD_cons, List.getLastD_cons, ih]

section
variable [Preorder α]

/-- Every message needs at most one of `levels` or a level written before it. -/
def Covered : List α → List (Entry α) → Prop
  | _, [] => True
  | levels, .write level :: entries => Covered (level :: levels) entries
  | levels, .send need :: entries => (∃ k ∈ levels, need ≤ k) ∧ Covered levels entries

/-- The entries take the level from `level` to `level'`, and no message runs ahead. -/
structure Rises (level level' : α) (entries : List (Entry α)) : Prop where
  ordered : (level :: writes entries).Pairwise (· ≤ ·)
  last : (writes entries).getLastD level = level'
  covered : Covered [level] entries

/-- The levels of a running process with tasks `tasks`, `d` on disk and `level` in memory. -/
structure Sound (d level : α) (tasks : List (Task α)) : Prop where
  covered : ∀ t ∈ tasks, Covered (d :: t.buffered) t.rest
  ordered : (d :: unwritten tasks).Pairwise (· ≤ ·)
  bounded : ∀ k ∈ d :: unwritten tasks, k ≤ level
  reached : ∃ k ∈ d :: unwritten tasks, level ≤ k

theorem Covered.mono {levels levels' : List α} {entries : List (Entry α)}
    (h : Covered levels entries) (hk : ∀ k ∈ levels, ∃ k' ∈ levels', k ≤ k') :
    Covered levels' entries := by
  induction entries generalizing levels levels' with
  | nil => trivial
  | cons e entries ih =>
    cases e with
    | write level =>
      apply ih h
      intro k hm
      rcases List.mem_cons.mp hm with rfl | hm
      · exact ⟨k, List.mem_cons_self .., le_refl k⟩
      · obtain ⟨k', hk', hle⟩ := hk k hm
        exact ⟨k', List.mem_cons_of_mem _ hk', hle⟩
    | send need =>
      obtain ⟨⟨k, hm, hle⟩, h⟩ := h
      obtain ⟨k', hk', hle'⟩ := hk k hm
      exact ⟨⟨k', hk', le_trans hle hle'⟩, ih h hk⟩

/-- The last of an ordered list is its largest, and what follows stays in order. -/
theorem pairwise_getLastD {d : α} {levels later : List α}
    (h : (d :: (levels ++ later)).Pairwise (· ≤ ·)) :
    (levels.getLastD d :: later).Pairwise (· ≤ ·) ∧ ∀ k ∈ d :: levels, k ≤ levels.getLastD d := by
  induction levels generalizing d with
  | nil =>
    refine ⟨h, fun k hk => ?_⟩
    rw [List.mem_singleton.mp hk]
    exact le_refl d
  | cons k ks ih =>
    obtain ⟨hd, hks⟩ := List.pairwise_cons.mp h
    obtain ⟨hlater, hle⟩ := ih hks
    rw [List.getLastD_cons]
    refine ⟨hlater, fun x hx => ?_⟩
    rcases List.mem_cons.mp hx with rfl | hx
    · exact le_trans (hd k (List.mem_cons_self ..)) (hle k (List.mem_cons_self ..))
    · exact hle x hx

/-! ### How entries compose -/

namespace Rises

theorem nil (level : α) : Rises level level ([] : List (Entry α)) where
  ordered := List.pairwise_singleton _ _
  last := rfl
  covered := trivial

theorem write {level level' : α} (h : level ≤ level') : Rises level level' [.write level'] where
  ordered := by simpa [writes, Entry.level?] using h
  last := rfl
  covered := trivial

theorem send {level need : α} (h : need ≤ level) : Rises level level [.send need] where
  ordered := List.pairwise_singleton _ _
  last := rfl
  covered := ⟨⟨level, List.mem_singleton_self level, h⟩, trivial⟩

theorem covered_append {levels : List α} {level level' : α} {entries entries' : List (Entry α)}
    (h : Covered levels entries) (hlast : (writes entries).getLastD level = level')
    (hlevel : level ∈ levels) (h' : Covered [level'] entries') :
    Covered levels (entries ++ entries') := by
  induction entries generalizing levels level with
  | nil =>
    apply h'.mono
    intro k hk
    rw [List.mem_singleton.mp hk, ← hlast]
    exact ⟨level, hlevel, le_refl level⟩
  | cons e entries ih =>
    cases e with
    | write l =>
      refine ih h ?_ (List.mem_cons_self ..)
      rw [← hlast]
      exact List.getLastD_cons.symm
    | send need => exact ⟨h.1, ih h.2 hlast hlevel⟩

theorem append {level level' level'' : α} {entries entries' : List (Entry α)}
    (h : Rises level level' entries) (h' : Rises level' level'' entries') :
    Rises level level'' (entries ++ entries') := by
  have hw : writes (entries ++ entries') = writes entries ++ writes entries' :=
    List.filterMap_append
  have ho := h.ordered
  rw [← List.append_nil (writes entries)] at ho
  have hle := (pairwise_getLastD ho).2
  rw [h.last] at hle
  obtain ⟨hnext, hnexts⟩ := List.pairwise_cons.mp h'.ordered
  constructor
  · rw [hw, ← List.cons_append]
    refine List.pairwise_append.mpr ⟨h.ordered, hnexts, fun x hx y hy => ?_⟩
    exact le_trans (hle x hx) (hnext y hy)
  · rw [hw, getLastD_append, h.last, h'.last]
  · exact covered_append h.covered h.last (List.mem_singleton_self level) h'.covered

end Rises

/-! ### What a process does -/

namespace Sound
variable {d level : α} {tasks : List (Task α)}

theorem start (d : α) : Sound d d ([] : List (Task α)) where
  covered := fun t ht => absurd ht List.not_mem_nil
  ordered := List.pairwise_singleton _ _
  bounded := by simp [unwritten]
  reached := ⟨d, List.mem_cons_self .., le_refl d⟩

/-- With nothing to be written the disk has the level. -/
theorem level_le (h : Sound d level tasks) (hs : unwritten tasks = []) : level ≤ d := by
  obtain ⟨k, hk, hle⟩ := h.reached
  rw [hs] at hk
  rwa [List.mem_singleton.mp hk] at hle

/-- New entries, while nothing is to be written. -/
theorem issue {level' : α} {entries : List (Entry α)} (h : Sound d level tasks)
    (hr : Rises level level' entries) (hs : entries ≠ [] → unwritten tasks = []) :
    Sound d level' (⟨[], entries⟩ :: tasks) := by
  have hw : unwritten (⟨[], entries⟩ :: tasks) = writes entries ++ unwritten tasks := rfl
  by_cases hn : entries = []
  · obtain rfl := hn
    obtain rfl : level = level' := hr.last
    refine ⟨fun t ht => ?_, h.ordered, h.bounded, h.reached⟩
    rcases List.mem_cons.mp ht with rfl | ht
    · trivial
    · exact h.covered t ht
  · have hnone := hs hn
    have hd : d ≤ level := h.bounded d (List.mem_cons_self ..)
    have hlevel := h.level_le hnone
    obtain ⟨hle, hwrites⟩ := List.pairwise_cons.mp hr.ordered
    have ho := hr.ordered
    rw [← List.append_nil (writes entries)] at ho
    have hlast := (pairwise_getLastD ho).2
    rw [hr.last] at hlast
    rw [hnone, List.append_nil] at hw
    constructor
    · intro t ht
      rcases List.mem_cons.mp ht with rfl | ht
      · apply hr.covered.mono
        intro k hk
        rw [List.mem_singleton.mp hk]
        exact ⟨d, List.mem_singleton_self d, hlevel⟩
      · exact h.covered t ht
    · rw [hw]
      exact List.pairwise_cons.mpr ⟨fun k hk => le_trans hd (hle k hk), hwrites⟩
    · rw [hw]
      intro k hk
      rcases List.mem_cons.mp hk with rfl | hk
      · exact le_trans hd (hlast level (List.mem_cons_self ..))
      · exact hlast k (List.mem_cons_of_mem _ hk)
    · rw [hw]
      have hmem : (writes entries).getLastD level ∈ level :: writes entries :=
        List.getLastD_mem_cons
      rcases List.mem_cons.mp hmem with he | hm
      · refine ⟨d, List.mem_cons_self .., ?_⟩
        rw [← hr.last, he]
        exact hlevel
      · rw [hr.last] at hm
        exact ⟨level', List.mem_cons_of_mem _ hm, le_refl level'⟩

/-- A change of the tasks that keeps what is to be written. -/
theorem of_unwritten {tasks' : List (Task α)} (h : Sound d level tasks)
    (hw : unwritten tasks' = unwritten tasks)
    (hc : ∀ t ∈ tasks', Covered (d :: t.buffered) t.rest) : Sound d level tasks' where
  covered := hc
  ordered := by rw [hw]; exact h.ordered
  bounded := by rw [hw]; exact h.bounded
  reached := by rw [hw]; exact h.reached

theorem buffer {key : α} {buffered : List α} {rest : List (Entry α)}
    (h : Sound d level (⟨buffered, .write key :: rest⟩ :: tasks)) :
    Sound d level (⟨buffered ++ [key], rest⟩ :: tasks) := by
  apply h.of_unwritten
  · show (buffered ++ [key] ++ writes rest) ++ _ = (buffered ++ writes (.write key :: rest)) ++ _
    have hm : writes (.write key :: rest) = key :: writes rest := rfl
    rw [hm, List.append_assoc buffered, List.singleton_append]
  · intro t ht
    rcases List.mem_cons.mp ht with rfl | ht
    · have hc : Covered (key :: d :: buffered) rest := h.covered _ (List.mem_cons_self ..)
      apply hc.mono
      intro k hk
      refine ⟨k, ?_, le_refl k⟩
      simp only [List.mem_cons, List.mem_append, List.not_mem_nil, or_false] at hk ⊢
      tauto
    · exact h.covered t (List.mem_cons_of_mem _ ht)

theorem flush_le {buffered : List α} {rest : List (Entry α)}
    (h : Sound d level (⟨buffered, rest⟩ :: tasks)) :
    ∀ k ∈ d :: buffered, k ≤ buffered.getLastD d := by
  have ho : (d :: (buffered ++ writes rest ++ unwritten tasks)).Pairwise (· ≤ ·) := h.ordered
  rw [List.append_assoc] at ho
  exact (pairwise_getLastD ho).2

/-- The batch is written. -/
theorem flush {buffered : List α} {rest : List (Entry α)}
    (h : Sound d level (⟨buffered, rest⟩ :: tasks)) :
    Sound (buffered.getLastD d) level (⟨[], rest⟩ :: tasks) := by
  have ho : (d :: (buffered ++ writes rest ++ unwritten tasks)).Pairwise (· ≤ ·) := h.ordered
  have hb : ∀ k ∈ d :: (buffered ++ writes rest ++ unwritten tasks), k ≤ level := h.bounded
  have hreached : ∃ k ∈ d :: (buffered ++ writes rest ++ unwritten tasks), level ≤ k := h.reached
  rw [List.append_assoc] at ho hb hreached
  obtain ⟨hlater, hle⟩ := pairwise_getLastD ho
  have hlast : buffered.getLastD d ∈ d :: buffered := List.getLastD_mem_cons
  constructor
  · intro t ht
    rcases List.mem_cons.mp ht with rfl | ht
    · refine (h.covered ⟨buffered, rest⟩ (List.mem_cons_self ..)).mono fun k hk => ?_
      exact ⟨_, List.mem_cons_self .., hle k hk⟩
    · refine (h.covered t (List.mem_cons_of_mem _ ht)).mono fun k hk => ?_
      rcases List.mem_cons.mp hk with rfl | hk
      · exact ⟨_, List.mem_cons_self .., hle k (List.mem_cons_self ..)⟩
      · exact ⟨k, List.mem_cons_of_mem _ hk, le_refl k⟩
  · exact hlater
  · intro k hk
    apply hb
    rcases List.mem_cons.mp hk with rfl | hk
    · rw [← List.cons_append]
      exact List.mem_append_left _ hlast
    · exact List.mem_cons_of_mem _ (List.mem_append_right _ hk)
  · obtain ⟨k, hk, hlk⟩ := hreached
    rw [← List.cons_append] at hk
    rcases List.mem_append.mp hk with hk | hk
    · exact ⟨_, List.mem_cons_self .., le_trans hlk (hle k hk)⟩
    · exact ⟨k, List.mem_cons_of_mem _ hk, hlk⟩

/-- What a message needs is on disk when it leaves. -/
theorem need_le {need : α} {rest : List (Entry α)}
    (h : Sound d level (⟨[], .send need :: rest⟩ :: tasks)) : need ≤ d := by
  obtain ⟨⟨k, hk, hle⟩, -⟩ := h.covered ⟨[], .send need :: rest⟩ (List.mem_cons_self ..)
  rwa [List.mem_singleton.mp hk] at hle

/-- The next message leaves the task, sent or not. -/
theorem advance {need : α} {rest : List (Entry α)}
    (h : Sound d level (⟨[], .send need :: rest⟩ :: tasks)) :
    Sound d level (⟨[], rest⟩ :: tasks) := by
  apply h.of_unwritten
  · rfl
  · intro t ht
    rcases List.mem_cons.mp ht with rfl | ht
    · exact (h.covered ⟨[], .send need :: rest⟩ (List.mem_cons_self ..)).2
    · exact h.covered t (List.mem_cons_of_mem _ ht)

theorem finish (h : Sound d level (⟨[], []⟩ :: tasks)) : Sound d level tasks := by
  apply h.of_unwritten
  · rfl
  · exact fun t ht => h.covered t (List.mem_cons_of_mem _ ht)

/-- A level from elsewhere is taken and written while nothing else is to be written. -/
theorem adopt {key level' : α} (h : Sound d level tasks) (hs : unwritten tasks = [])
    (hd : d ≤ key) (hkey : key ≤ level') (hlevel : level' ≤ key ∨ level' ≤ level) :
    Sound key level' tasks := by
  have hle : level' ≤ key := hlevel.elim id fun hl => le_trans hl (le_trans (h.level_le hs) hd)
  constructor
  · intro t ht
    refine (h.covered t ht).mono fun k hk => ?_
    rcases List.mem_cons.mp hk with rfl | hk
    · exact ⟨key, List.mem_cons_self .., hd⟩
    · exact ⟨k, List.mem_cons_of_mem _ hk, le_refl k⟩
  · rw [hs]
    exact List.pairwise_singleton _ _
  · rw [hs]
    intro k hk
    rw [List.mem_singleton.mp hk]
    exact hkey
  · exact ⟨key, List.mem_cons_self .., hle⟩

end Sound

end

end Boule.WriteAhead
