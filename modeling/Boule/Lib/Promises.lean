import Mathlib.Data.List.Basic
import Mathlib.Data.Nat.Notation
import Mathlib.Logic.Relation

/-! Promises by a process that may crash. A promise is a value sent under a key; before it is
sent its key is marked, and marks reach the disk in batches. Only the latest mark on disk
survives a crash. -/
namespace Boule.Promises

variable {β : Type}

inductive Entry (β : Type) where
  | mark (key : ℕ)
  | send (key : ℕ) (value : β)

namespace Entry

def mark? : Entry β → Option ℕ
  | mark key => some key
  | send _ _ => none

def send? : Entry β → Option (ℕ × β)
  | mark _ => none
  | send key value => some (key, value)

end Entry

/-- Marks that are buffered, and entries still to be carried out. -/
structure Task (β : Type) where
  buffered : List ℕ
  rest : List (Entry β)

def marks (entries : List (Entry β)) : List ℕ := entries.filterMap Entry.mark?

def sends (entries : List (Entry β)) : List (ℕ × β) := entries.filterMap Entry.send?

/-- The marks of a task that are not on disk. -/
def Task.unwritten (t : Task β) : List ℕ := t.buffered ++ marks t.rest

def unwritten (tasks : List (Task β)) : List ℕ := tasks.flatMap Task.unwritten

def undelivered (tasks : List (Task β)) : List (ℕ × β) := tasks.flatMap fun t => sends t.rest

/-- A running process: the highest key it has used and its tasks, the innermost first. -/
structure Live (β : Type) where
  used : ℕ
  tasks : List (Task β)

structure Journal (β : Type) where
  durable : ℕ
  sent : List (ℕ × β)
  live : Option (Live β)

/-- Every sent key is at most one of `keys` or a mark before it. -/
def Covered : List ℕ → List (Entry β) → Prop
  | _, [] => True
  | keys, .mark key :: entries => Covered (key :: keys) entries
  | keys, .send key _ :: entries => (∃ k ∈ keys, key ≤ k) ∧ Covered keys entries

/-- New promises: each under a key above all earlier ones, and marked before it is sent. -/
structure Issues (used used' : ℕ) (entries : List (Entry β)) : Prop where
  le : used ≤ used'
  marks_eq : marks entries = (sends entries).map Prod.fst
  sorted : (sends entries).Pairwise fun s t => s.1 < t.1
  bounds : ∀ s ∈ sends entries, used < s.1 ∧ s.1 ≤ used'
  covered : Covered [] entries

/-- What the process does. Promises are issued only while no mark of another task is missing
on disk, and a mark taken from outside lies between the one on disk and those still to come. -/
inductive Move : Journal β → Journal β → Prop
  | crash (j : Journal β) : Move j { j with live := none }
  | recover {j : Journal β} (down : j.live = none) :
    Move j { j with live := some ⟨j.durable, []⟩ }
  | issue {d : ℕ} {s : List (ℕ × β)} {used used' : ℕ} {tasks : List (Task β)}
    {entries : List (Entry β)} (issues : Issues used used' entries)
    (settled : sends entries ≠ [] → unwritten tasks = []) :
    Move ⟨d, s, some ⟨used, tasks⟩⟩ ⟨d, s, some ⟨used', ⟨[], entries⟩ :: tasks⟩⟩
  | buffer {d : ℕ} {s : List (ℕ × β)} {used key : ℕ} {buffered : List ℕ}
    {rest : List (Entry β)} {tasks : List (Task β)} :
    Move ⟨d, s, some ⟨used, ⟨buffered, .mark key :: rest⟩ :: tasks⟩⟩
      ⟨d, s, some ⟨used, ⟨buffered ++ [key], rest⟩ :: tasks⟩⟩
  | flush {d : ℕ} {s : List (ℕ × β)} {used : ℕ} {buffered : List ℕ} {rest : List (Entry β)}
    {tasks : List (Task β)} :
    Move ⟨d, s, some ⟨used, ⟨buffered, rest⟩ :: tasks⟩⟩
      ⟨buffered.getLastD d, s, some ⟨used, ⟨[], rest⟩ :: tasks⟩⟩
  | deliver {d : ℕ} {s : List (ℕ × β)} {used key : ℕ} {value : β} {rest : List (Entry β)}
    {tasks : List (Task β)} :
    Move ⟨d, s, some ⟨used, ⟨[], .send key value :: rest⟩ :: tasks⟩⟩
      ⟨d, s ++ [(key, value)], some ⟨used, ⟨[], rest⟩ :: tasks⟩⟩
  | drop {d : ℕ} {s : List (ℕ × β)} {used key : ℕ} {value : β} {rest : List (Entry β)}
    {tasks : List (Task β)} :
    Move ⟨d, s, some ⟨used, ⟨[], .send key value :: rest⟩ :: tasks⟩⟩
      ⟨d, s, some ⟨used, ⟨[], rest⟩ :: tasks⟩⟩
  | finish {d : ℕ} {s : List (ℕ × β)} {used : ℕ} {tasks : List (Task β)} :
    Move ⟨d, s, some ⟨used, ⟨[], []⟩ :: tasks⟩⟩ ⟨d, s, some ⟨used, tasks⟩⟩
  | adopt {d : ℕ} {s : List (ℕ × β)} {used key : ℕ} {tasks : List (Task β)} (above : d ≤ key)
    (below : ∀ k ∈ unwritten tasks, key ≤ k) :
    Move ⟨d, s, some ⟨used, tasks⟩⟩ ⟨key, s, some ⟨max used key, tasks⟩⟩

/-- A running process keeps its keys in order: what is on disk, then what is to be written. -/
structure LiveSound (d : ℕ) (s : List (ℕ × β)) (l : Live β) : Prop where
  used_ge : ∀ p ∈ s ++ undelivered l.tasks, p.1 ≤ l.used
  agree : ∀ p ∈ s ++ undelivered l.tasks, ∀ q ∈ s ++ undelivered l.tasks, p.1 = q.1 → p = q
  covered : ∀ t ∈ l.tasks, Covered (d :: t.buffered) t.rest
  ordered : (d :: unwritten l.tasks).Pairwise (· ≤ ·)
  bounded : ∀ k ∈ d :: unwritten l.tasks, k ≤ l.used

structure Sound (j : Journal β) : Prop where
  agree : ∀ p ∈ j.sent, ∀ q ∈ j.sent, p.1 = q.1 → p = q
  durable : ∀ p ∈ j.sent, p.1 ≤ j.durable
  live : ∀ l ∈ j.live, LiveSound j.durable j.sent l

theorem Covered.mono {keys keys' : List ℕ} {entries : List (Entry β)}
    (h : Covered keys entries) (hk : ∀ k ∈ keys, ∃ k' ∈ keys', k ≤ k') :
    Covered keys' entries := by
  induction entries generalizing keys keys' with
  | nil => trivial
  | cons e entries ih =>
    cases e with
    | mark key =>
      apply ih h
      intro k hm
      rcases List.mem_cons.mp hm with rfl | hm
      · exact ⟨k, List.mem_cons_self .., Nat.le_refl k⟩
      · obtain ⟨k', hk', hle⟩ := hk k hm
        exact ⟨k', List.mem_cons_of_mem _ hk', hle⟩
    | send key value =>
      obtain ⟨⟨k, hm, hle⟩, h⟩ := h
      obtain ⟨k', hk', hle'⟩ := hk k hm
      exact ⟨⟨k', hk', Nat.le_trans hle hle'⟩, ih h hk⟩

theorem Covered.append {keys : List ℕ} {entries entries' : List (Entry β)}
    (h : Covered keys entries) (h' : Covered [] entries') :
    Covered keys (entries ++ entries') := by
  induction entries generalizing keys with
  | nil => exact h'.mono fun k hk => absurd hk (List.not_mem_nil)
  | cons e entries ih =>
    cases e with
    | mark key => exact ih h
    | send key value => exact ⟨h.1, ih h.2⟩

theorem Issues.nil (used : ℕ) : Issues used used ([] : List (Entry β)) where
  le := Nat.le_refl used
  marks_eq := rfl
  sorted := .nil
  bounds := fun _ hs => absurd hs List.not_mem_nil
  covered := trivial

theorem Issues.single {used key : ℕ} (h : used < key) (value : β) :
    Issues used key [.mark key, .send key value] where
  le := Nat.le_of_lt h
  marks_eq := rfl
  sorted := List.pairwise_singleton _ _
  bounds := by
    intro s hs
    obtain rfl : s = (key, value) := List.mem_singleton.mp hs
    exact ⟨h, Nat.le_refl key⟩
  covered := ⟨⟨key, List.mem_cons_self .., Nat.le_refl key⟩, trivial⟩

theorem Issues.append {used used' used'' : ℕ} {entries entries' : List (Entry β)}
    (h : Issues used used' entries) (h' : Issues used' used'' entries') :
    Issues used used'' (entries ++ entries') := by
  have hm : marks (entries ++ entries') = marks entries ++ marks entries' := List.filterMap_append
  have hs : sends (entries ++ entries') = sends entries ++ sends entries' := List.filterMap_append
  constructor
  · exact Nat.le_trans h.le h'.le
  · rw [hm, hs, List.map_append, h.marks_eq, h'.marks_eq]
  · rw [hs]
    refine List.pairwise_append.mpr ⟨h.sorted, h'.sorted, fun p hp q hq => ?_⟩
    exact Nat.lt_of_le_of_lt (h.bounds p hp).2 (h'.bounds q hq).1
  · rw [hs]
    intro p hp
    rcases List.mem_append.mp hp with hp | hp
    · exact ⟨(h.bounds p hp).1, Nat.le_trans (h.bounds p hp).2 h'.le⟩
    · exact ⟨Nat.lt_of_le_of_lt h.le (h'.bounds p hp).1, (h'.bounds p hp).2⟩
  · exact h.covered.append h'.covered

/-- Keys in strict order name one promise each. -/
theorem eq_of_pairwise_lt {s : List (ℕ × β)} (hs : s.Pairwise fun p q => p.1 < q.1)
    {p q : ℕ × β} (hp : p ∈ s) (hq : q ∈ s) (h : p.1 = q.1) : p = q := by
  induction hs with
  | nil => exact absurd hp List.not_mem_nil
  | cons hlt _ ih =>
    rcases List.mem_cons.mp hp with rfl | hp' <;> rcases List.mem_cons.mp hq with rfl | hq'
    · rfl
    · have := hlt q hq'
      omega
    · have := hlt p hp'
      omega
    · exact ih hp' hq'

/-! ### What a move preserves -/

section
variable {d used : ℕ} {s : List (ℕ × β)} {tasks : List (Task β)}

theorem LiveSound.le_used (h : LiveSound d s ⟨used, tasks⟩) : d ≤ used :=
  h.bounded d (List.mem_cons_self ..)

theorem LiveSound.agree_sent (h : LiveSound d s ⟨used, tasks⟩) :
    ∀ p ∈ s, ∀ q ∈ s, p.1 = q.1 → p = q :=
  fun p hp q hq => h.agree p (List.mem_append_left _ hp) q (List.mem_append_left _ hq)

theorem liveSound_recover (hs : ∀ p ∈ s, p.1 ≤ d)
    (ha : ∀ p ∈ s, ∀ q ∈ s, p.1 = q.1 → p = q) : LiveSound d s ⟨d, []⟩ where
  used_ge := by simpa [undelivered] using fun p => hs p
  agree := by simpa [undelivered] using fun p v => ha (p, v)
  covered := fun t ht => absurd ht List.not_mem_nil
  ordered := List.pairwise_singleton _ _
  bounded := by simp [unwritten]

/-- Only fewer promises are left to be delivered. -/
theorem LiveSound.of_subset {tasks' : List (Task β)} {s' : List (ℕ × β)}
    (h : LiveSound d s ⟨used, tasks⟩)
    (hsub : ∀ p ∈ s' ++ undelivered tasks', p ∈ s ++ undelivered tasks)
    (hw : unwritten tasks' = unwritten tasks)
    (hc : ∀ t ∈ tasks', Covered (d :: t.buffered) t.rest) : LiveSound d s' ⟨used, tasks'⟩ where
  used_ge := fun p hp => h.used_ge p (hsub p hp)
  agree := fun p hp q hq => h.agree p (hsub p hp) q (hsub q hq)
  covered := hc
  ordered := by rw [hw]; exact h.ordered
  bounded := by rw [hw]; exact h.bounded

theorem LiveSound.issue {used' : ℕ} {entries : List (Entry β)}
    (h : LiveSound d s ⟨used, tasks⟩) (hi : Issues used used' entries)
    (hs : sends entries ≠ [] → unwritten tasks = []) :
    LiveSound d s ⟨used', ⟨[], entries⟩ :: tasks⟩ := by
  have hu : undelivered (⟨[], entries⟩ :: tasks) = sends entries ++ undelivered tasks := rfl
  have hw : unwritten (⟨[], entries⟩ :: tasks) = marks entries ++ unwritten tasks := rfl
  have hmem : ∀ p ∈ s ++ undelivered (⟨[], entries⟩ :: tasks),
      p ∈ sends entries ∨ p ∈ s ++ undelivered tasks := by
    intro p hp
    rw [hu] at hp
    simp only [List.mem_append] at hp ⊢
    tauto
  have hmark : ∀ k ∈ marks entries, used < k ∧ k ≤ used' := by
    intro k hk
    rw [hi.marks_eq] at hk
    obtain ⟨p, hp, rfl⟩ := List.mem_map.mp hk
    exact hi.bounds p hp
  constructor
  · intro p hp
    rcases hmem p hp with hp | hp
    · exact (hi.bounds p hp).2
    · exact Nat.le_trans (h.used_ge p hp) hi.le
  · intro p hp q hq he
    rcases hmem p hp with hp | hp <;> rcases hmem q hq with hq | hq
    · exact eq_of_pairwise_lt hi.sorted hp hq he
    · have hlt := (hi.bounds p hp).1
      have hle : q.1 ≤ used := h.used_ge q hq
      omega
    · have hlt := (hi.bounds q hq).1
      have hle : p.1 ≤ used := h.used_ge p hp
      omega
    · exact h.agree p hp q hq he
  · intro t ht
    rcases List.mem_cons.mp ht with rfl | ht
    · exact hi.covered.mono fun k hk => absurd hk List.not_mem_nil
    · exact h.covered t ht
  · rw [hw]
    cases hn : sends entries with
    | nil =>
      have hm : marks entries = [] := by rw [hi.marks_eq, hn, List.map_nil]
      rw [hm]
      exact h.ordered
    | cons p ps =>
      have hd := h.le_used
      rw [hs (by rw [hn]; exact List.cons_ne_nil _ _), List.append_nil]
      refine List.pairwise_cons.mpr ⟨fun k hk => ?_, ?_⟩
      · have := (hmark k hk).1
        omega
      · rw [hi.marks_eq]
        exact List.pairwise_map.mpr (hi.sorted.imp Nat.le_of_lt)
  · rw [hw]
    intro k hk
    rcases List.mem_cons.mp hk with rfl | hk
    · exact Nat.le_trans h.le_used hi.le
    · rcases List.mem_append.mp hk with hk | hk
      · exact (hmark k hk).2
      · exact Nat.le_trans (h.bounded k (List.mem_cons_of_mem _ hk)) hi.le

theorem LiveSound.buffer {key : ℕ} {buffered : List ℕ} {rest : List (Entry β)}
    (h : LiveSound d s ⟨used, ⟨buffered, .mark key :: rest⟩ :: tasks⟩) :
    LiveSound d s ⟨used, ⟨buffered ++ [key], rest⟩ :: tasks⟩ := by
  apply h.of_subset
  · exact fun p hp => hp
  · have hm : marks (.mark key :: rest) = key :: marks rest := rfl
    show (buffered ++ [key] ++ marks rest) ++ _ = (buffered ++ marks (.mark key :: rest)) ++ _
    rw [hm, List.append_assoc buffered, List.singleton_append]
  · intro t ht
    rcases List.mem_cons.mp ht with rfl | ht
    · have hc : Covered (key :: d :: buffered) rest := h.covered _ (List.mem_cons_self ..)
      apply hc.mono
      intro k hk
      refine ⟨k, ?_, Nat.le_refl k⟩
      simp only [List.mem_cons, List.mem_append, List.not_mem_nil, or_false] at hk ⊢
      tauto
    · exact h.covered t (List.mem_cons_of_mem _ ht)

/-- The last of an ordered list is its largest, and what follows stays in order. -/
theorem pairwise_getLastD {keys later : List ℕ} (h : (d :: (keys ++ later)).Pairwise (· ≤ ·)) :
    (keys.getLastD d :: later).Pairwise (· ≤ ·) ∧ ∀ k ∈ d :: keys, k ≤ keys.getLastD d := by
  induction keys generalizing d with
  | nil => exact ⟨h, fun k hk => Nat.le_of_eq (List.mem_singleton.mp hk)⟩
  | cons k ks ih =>
    obtain ⟨hd, hks⟩ := List.pairwise_cons.mp h
    obtain ⟨hlater, hle⟩ := ih hks
    rw [List.getLastD_cons]
    refine ⟨hlater, fun x hx => ?_⟩
    rcases List.mem_cons.mp hx with rfl | hx
    · exact Nat.le_trans (hd k (List.mem_cons_self ..)) (hle k (List.mem_cons_self ..))
    · exact hle x hx

theorem LiveSound.flush_le {buffered : List ℕ} {rest : List (Entry β)}
    (h : LiveSound d s ⟨used, ⟨buffered, rest⟩ :: tasks⟩) :
    ∀ k ∈ d :: buffered, k ≤ buffered.getLastD d := by
  have ho : (d :: (buffered ++ marks rest ++ unwritten tasks)).Pairwise (· ≤ ·) := h.ordered
  rw [List.append_assoc] at ho
  exact (pairwise_getLastD ho).2

theorem LiveSound.flush {buffered : List ℕ} {rest : List (Entry β)}
    (h : LiveSound d s ⟨used, ⟨buffered, rest⟩ :: tasks⟩) :
    LiveSound (buffered.getLastD d) s ⟨used, ⟨[], rest⟩ :: tasks⟩ := by
  have ho : (d :: (buffered ++ marks rest ++ unwritten tasks)).Pairwise (· ≤ ·) := h.ordered
  have hb : ∀ k ∈ d :: (buffered ++ marks rest ++ unwritten tasks), k ≤ used := h.bounded
  rw [List.append_assoc] at ho hb
  obtain ⟨hlater, hle⟩ := pairwise_getLastD ho
  have hd : d ≤ buffered.getLastD d := hle d (List.mem_cons_self ..)
  constructor
  · exact h.used_ge
  · exact h.agree
  · intro t ht
    rcases List.mem_cons.mp ht with rfl | ht
    · refine (h.covered ⟨buffered, rest⟩ (List.mem_cons_self ..)).mono fun k hk => ?_
      exact ⟨_, List.mem_cons_self .., hle k hk⟩
    · refine (h.covered t (List.mem_cons_of_mem _ ht)).mono fun k hk => ?_
      rcases List.mem_cons.mp hk with rfl | hk
      · exact ⟨_, List.mem_cons_self .., hd⟩
      · exact ⟨k, List.mem_cons_of_mem _ hk, Nat.le_refl k⟩
  · exact hlater
  · intro k hk
    apply hb
    rcases List.mem_cons.mp hk with rfl | hk
    · rcases List.mem_cons.mp (List.getLastD_mem_cons (l := buffered) (a := d)) with he | hm
      · rw [he]
        exact List.mem_cons_self ..
      · exact List.mem_cons_of_mem _ (List.mem_append_left _ hm)
    · exact List.mem_cons_of_mem _ (List.mem_append_right _ hk)

theorem LiveSound.deliver_le {key : ℕ} {value : β} {rest : List (Entry β)}
    (h : LiveSound d s ⟨used, ⟨[], .send key value :: rest⟩ :: tasks⟩) : key ≤ d := by
  obtain ⟨⟨k, hk, hle⟩, -⟩ := h.covered ⟨[], .send key value :: rest⟩ (List.mem_cons_self ..)
  rwa [List.mem_singleton.mp hk] at hle

/-- The next promise leaves the task, sent or not. -/
theorem LiveSound.advance {key : ℕ} {value : β} {rest : List (Entry β)} {s' : List (ℕ × β)}
    (h : LiveSound d s ⟨used, ⟨[], .send key value :: rest⟩ :: tasks⟩)
    (hs : ∀ p ∈ s', p ∈ s ∨ p = (key, value)) :
    LiveSound d s' ⟨used, ⟨[], rest⟩ :: tasks⟩ := by
  have hu : undelivered (⟨[], .send key value :: rest⟩ :: tasks) =
      (key, value) :: undelivered (⟨[], rest⟩ :: tasks) := rfl
  apply h.of_subset
  · intro p hp
    rw [hu, List.mem_append, List.mem_cons]
    rcases List.mem_append.mp hp with hp | hp
    · exact (hs p hp).imp_right .inl
    · exact .inr (.inr hp)
  · rfl
  · intro t ht
    rcases List.mem_cons.mp ht with rfl | ht
    · exact (h.covered ⟨[], .send key value :: rest⟩ (List.mem_cons_self ..)).2
    · exact h.covered t (List.mem_cons_of_mem _ ht)

theorem LiveSound.adopt {key : ℕ} (h : LiveSound d s ⟨used, tasks⟩) (hd : d ≤ key)
    (hw : ∀ k ∈ unwritten tasks, key ≤ k) : LiveSound key s ⟨max used key, tasks⟩ where
  used_ge := fun p hp => Nat.le_trans (h.used_ge p hp) (Nat.le_max_left ..)
  agree := h.agree
  covered := by
    intro t ht
    refine (h.covered t ht).mono fun k hk => ?_
    rcases List.mem_cons.mp hk with rfl | hk
    · exact ⟨key, List.mem_cons_self .., hd⟩
    · exact ⟨k, List.mem_cons_of_mem _ hk, Nat.le_refl k⟩
  ordered := List.pairwise_cons.mpr ⟨hw, (List.pairwise_cons.mp h.ordered).2⟩
  bounded := by
    intro k hk
    rcases List.mem_cons.mp hk with rfl | hk
    · exact Nat.le_max_right ..
    · exact Nat.le_trans (h.bounded k (List.mem_cons_of_mem _ hk)) (Nat.le_max_left ..)

end

theorem Sound.of_live {d : ℕ} {s : List (ℕ × β)} {l : Live β} (h : LiveSound d s l)
    (hd : ∀ p ∈ s, p.1 ≤ d) : Sound ⟨d, s, some l⟩ where
  agree := h.agree_sent
  durable := hd
  live := by
    intro l' hl
    obtain rfl := Option.some.inj hl
    exact h

theorem Sound.move {j j' : Journal β} (h : Sound j) (hm : Move j j') : Sound j' := by
  cases hm with
  | crash => exact ⟨h.agree, h.durable, fun l hl => absurd hl (by simp)⟩
  | recover down =>
    exact .of_live (liveSound_recover h.durable h.agree) h.durable
  | issue issues settled => exact .of_live ((h.live _ rfl).issue issues settled) h.durable
  | buffer => exact .of_live (h.live _ rfl).buffer h.durable
  | flush =>
    have hl := h.live _ rfl
    refine .of_live hl.flush fun p hp => ?_
    exact Nat.le_trans (h.durable p hp) (hl.flush_le _ (List.mem_cons_self ..))
  | deliver =>
    have hl := h.live _ rfl
    refine .of_live (hl.advance fun p hp => ?_) fun p hp => ?_
    · simpa using hp
    · rcases List.mem_append.mp hp with hp | hp
      · exact h.durable p hp
      · rw [List.mem_singleton.mp hp]
        exact hl.deliver_le
  | drop => exact .of_live ((h.live _ rfl).advance fun p hp => .inl hp) h.durable
  | finish =>
    have hl := h.live _ rfl
    refine .of_live (hl.of_subset (fun p hp => hp) rfl fun t ht => ?_) h.durable
    exact hl.covered t (List.mem_cons_of_mem _ ht)
  | adopt above below =>
    refine .of_live ((h.live _ rfl).adopt above below) fun p hp => ?_
    exact Nat.le_trans (h.durable p hp) above

/-- Any number of moves. -/
theorem Sound.moves {j j' : Journal β} (h : Sound j) (hm : Relation.ReflTransGen Move j j') :
    Sound j' := by
  induction hm with
  | refl => exact h
  | tail _ hlast ih => exact ih.move hlast

end Boule.Promises
