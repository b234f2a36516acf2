import Mathlib.Data.List.AList
import Mathlib.Data.List.Dedup
import Mathlib.Data.List.MinMax
import Mathlib.Data.List.Sort
import Mathlib.Data.Prod.Lex

/-! Finite maps with pairwise distinct keys, as association lists. Iteration order is the
order of the entries; whatever must not depend on it is stated through `get?`. -/
namespace Boule

/-- The elements in increasing order, each once. -/
def sortedSet (l : List ℕ) : List ℕ := l.dedup.insertionSort (· ≤ ·)

theorem mem_sortedSet {l : List ℕ} {x : ℕ} : x ∈ sortedSet l ↔ x ∈ l :=
  (List.mem_insertionSort _).trans List.mem_dedup

theorem sortedSet_congr {l l' : List ℕ} (h : ∀ x, x ∈ l ↔ x ∈ l') :
    sortedSet l = sortedSet l' := by
  have hdedup : l.dedup.Perm l'.dedup :=
    (List.perm_ext_iff_of_nodup l.nodup_dedup l'.nodup_dedup).mpr fun x => by
      rw [List.mem_dedup, List.mem_dedup, h x]
  have hperm : (sortedSet l).Perm (sortedSet l') :=
    (List.perm_insertionSort _ _).trans (hdedup.trans (List.perm_insertionSort _ _).symm)
  exact hperm.eq_of_pairwise (fun a b _ _ hab hba => Nat.le_antisymm hab hba)
    (List.pairwise_insertionSort _ _) (List.pairwise_insertionSort _ _)

section
variable {K V : Type} [Preorder K] {l l' : List (K × V)}

theorem nodup_of_keys_lt (h : l.Pairwise fun a b => a.1 < b.1) : l.Nodup := by
  refine h.imp ?_
  rintro a b hlt rfl
  exact lt_irrefl _ hlt

/-- Entries in the order of their keys, each key once, are decided by what they contain. -/
theorem eq_of_keys_lt (h : l.Pairwise fun a b => a.1 < b.1) (h' : l'.Pairwise fun a b => a.1 < b.1)
    (hmem : ∀ e, e ∈ l ↔ e ∈ l') : l = l' := by
  have hperm : l.Perm l' :=
    (List.perm_ext_iff_of_nodup (nodup_of_keys_lt h) (nodup_of_keys_lt h')).mpr hmem
  exact hperm.eq_of_pairwise (fun a b _ _ hab hba => absurd hba (lt_asymm hab)) h h'

end

/-- A finite map from `K` to `V`. -/
abbrev Table (K V : Type) := AList fun _ : K => V

namespace Table
variable {K V : Type} [DecidableEq K]

/-- Two tables are compared by their entries, so that the comparison evaluates. -/
instance [DecidableEq V] : DecidableEq (Table K V) := fun t t' =>
  decidable_of_iff (t.entries = t'.entries) AList.ext_iff.symm

def get? (t : Table K V) (k : K) : Option V := t.lookup k

def containsKey (t : Table K V) (k : K) : Bool := (t.get? k).isSome

def size (t : Table K V) : ℕ := t.entries.length

def toList (t : Table K V) : List (K × V) := t.entries.map fun e => (e.1, e.2)

/-- Every entry of the first table is in the second one. -/
def Within (t t' : Table K V) : Prop := ∀ k v, t.get? k = some v → t'.get? k = some v

/-- Keep the entries that satisfy `p`. -/
def retain (t : Table K V) (p : K → V → Bool) : Table K V where
  entries := t.entries.filter fun e => p e.1 e.2
  nodupKeys := t.nodupKeys.sublist List.filter_sublist

/-- The entry with the least rank, the first one among equals. -/
def minBy {R : Type} [LinearOrder R] (t : Table K V) (rank : K → V → R) : Option (K × V) :=
  t.toList.argmin fun e => rank e.1 e.2

@[simp] theorem get?_empty (k : K) : (∅ : Table K V).get? k = none := AList.lookup_empty k

theorem get?_insert (t : Table K V) (k k' : K) (v : V) :
    get? (t.insert k v) k' = if k' = k then some v else t.get? k' := by
  unfold get?
  split_ifs with h
  · subst h
    exact AList.lookup_insert t
  · exact AList.lookup_insert_ne h

@[simp] theorem get?_insert_self (t : Table K V) (k : K) (v : V) :
    get? (t.insert k v) k = some v := AList.lookup_insert t

theorem get?_insert_of_ne (t : Table K V) {k k' : K} (h : k' ≠ k) (v : V) :
    get? (t.insert k v) k' = t.get? k' := AList.lookup_insert_ne h

theorem get?_erase (t : Table K V) (k k' : K) :
    get? (t.erase k) k' = if k' = k then none else t.get? k' := by
  unfold get?
  split_ifs with h
  · subst h
    exact AList.lookup_erase _ t
  · exact AList.lookup_erase_ne h

theorem get?_eq_some_iff (t : Table K V) (k : K) (v : V) :
    t.get? k = some v ↔ ⟨k, v⟩ ∈ t.entries := AList.mem_lookup_iff

theorem mem_toList (t : Table K V) (k : K) (v : V) :
    (k, v) ∈ t.toList ↔ t.get? k = some v := by
  rw [get?_eq_some_iff, toList, List.mem_map]
  constructor
  · rintro ⟨⟨k', v'⟩, h, he⟩
    obtain ⟨rfl, rfl⟩ := Prod.mk.inj he
    exact h
  · exact fun h => ⟨⟨k, v⟩, h, rfl⟩

theorem get?_retain_eq_some (t : Table K V) (p : K → V → Bool) (k : K) (v : V) :
    (t.retain p).get? k = some v ↔ t.get? k = some v ∧ p k v = true := by
  rw [get?_eq_some_iff, get?_eq_some_iff]
  exact List.mem_filter

theorem get?_retain_key (t : Table K V) (p : K → Bool) (k : K) :
    (t.retain fun k _ => p k).get? k = if p k then t.get? k else none := by
  apply Option.ext
  intro v
  rw [get?_retain_eq_some]
  cases hp : p k <;> simp

theorem get?_of_erase {t : Table K V} {k k' : K} {v : V}
    (h : get? (t.erase k) k' = some v) : t.get? k' = some v := by
  rw [get?_erase] at h
  split_ifs at h
  exact h

theorem get?_foldl_erase_keys (t : Table K V) (keys : List K) (k : K) :
    get? (keys.foldl (fun t k => t.erase k) t) k = if k ∈ keys then none else t.get? k := by
  induction keys generalizing t with
  | nil => simp
  | cons first rest ih =>
    rw [List.foldl_cons, ih, get?_erase]
    by_cases hrest : k ∈ rest
    · simp [hrest]
    · by_cases hfirst : k = first <;> simp [hrest, hfirst]

theorem get?_of_foldl_erase {E : Type} {t : Table K V} {es : List E} {key : E → K} {k : K} {v : V}
    (h : get? (es.foldl (fun t e => t.erase (key e)) t) k = some v) : t.get? k = some v := by
  induction es generalizing t with
  | nil => exact h
  | cons e es ih => exact get?_of_erase (ih h)

theorem get?_of_retain {t : Table K V} {p : K → V → Bool} {k : K} {v : V}
    (h : (t.retain p).get? k = some v) : t.get? k = some v :=
  ((get?_retain_eq_some t p k v).mp h).1

theorem containsKey_iff (t : Table K V) (k : K) :
    t.containsKey k = true ↔ ∃ v, t.get? k = some v := Option.isSome_iff_exists

theorem containsKey_eq_false_iff (t : Table K V) (k : K) :
    t.containsKey k = false ↔ t.get? k = none := by
  rw [containsKey, Option.isSome_eq_false_iff, Option.isNone_iff_eq_none]

theorem size_insert_of_new {t : Table K V} {k : K} (h : t.containsKey k = false) (v : V) :
    Table.size (t.insert k v) = t.size + 1 := by
  have hnew : k ∉ t := AList.lookup_eq_none.mp ((containsKey_eq_false_iff _ _).mp h)
  unfold size
  rw [AList.entries_insert_of_notMem hnew]
  rfl

omit [DecidableEq K] in
theorem keys_length (t : Table K V) : t.keys.length = t.size := List.length_map _

theorem mem_keys_iff {t : Table K V} {k : K} : k ∈ t.keys ↔ t.containsKey k = true := by
  rw [containsKey_iff, ← Option.isSome_iff_exists]
  exact AList.lookup_isSome.symm

omit [DecidableEq K] in
theorem size_retain_le (t : Table K V) (p : K → V → Bool) : (t.retain p).size ≤ t.size :=
  List.length_filter_le _ _

theorem size_erase_of_mem {t : Table K V} {k : K} (h : t.containsKey k = true) :
    Table.size (t.erase k) + 1 = t.size := by
  have hmem := mem_keys_iff.mpr h
  have hpos := List.length_pos_of_mem hmem
  rw [← keys_length, ← keys_length, AList.keys_erase, List.length_erase_of_mem hmem]
  omega

theorem size_insert_of_mem {t : Table K V} {k : K} (h : t.containsKey k = true) (v : V) :
    Table.size (t.insert k v) = t.size := by
  have hmem := mem_keys_iff.mpr h
  have hpos := List.length_pos_of_mem hmem
  rw [← keys_length, ← keys_length, AList.keys_insert, List.length_cons,
    List.length_erase_of_mem hmem]
  omega

/-! ### Tables that answer alike -/

/-- Every lookup has the same answer; the order of the entries may differ. -/
def Same (t t' : Table K V) : Prop := ∀ k, t.get? k = t'.get? k

theorem Same.refl (t : Table K V) : t.Same t := fun _ => rfl

theorem Same.symm {t t' : Table K V} (h : t.Same t') : t'.Same t := fun k => (h k).symm

theorem Same.trans {t t' t'' : Table K V} (h : t.Same t') (h' : t'.Same t'') : t.Same t'' :=
  fun k => (h k).trans (h' k)

theorem Same.insert {t t' : Table K V} (h : t.Same t') (k : K) (v : V) :
    Same (t.insert k v) (t'.insert k v) := by
  intro k'
  rw [get?_insert, get?_insert, h k']

theorem Same.erase {t t' : Table K V} (h : t.Same t') (k : K) :
    Same (t.erase k) (t'.erase k) := by
  intro k'
  rw [get?_erase, get?_erase, h k']

/-- The old value put back in place of a new one. -/
theorem same_insert_back {t : Table K V} {k : K} {v : V} (h : t.get? k = some v) (v' : V) :
    Same ((t.insert k v').insert k v) t := by
  intro k'
  rw [get?_insert]
  split_ifs with hk
  · rw [hk, h]
  · exact get?_insert_of_ne t hk v'

/-- A key that is inserted and erased again leaves no trace when it was not there before. -/
theorem same_erase_insert_iff (t : Table K V) (k : K) (v : V) :
    Same ((t.insert k v).erase k) t ↔ t.get? k = none := by
  constructor
  · intro h
    rw [← h k, get?_erase, if_pos rfl]
  · intro h k'
    rw [get?_erase]
    split_ifs with hk
    · rw [hk, h]
    · exact get?_insert_of_ne t hk v

theorem Same.retain {t t' : Table K V} (h : t.Same t') (p : K → V → Bool) :
    (t.retain p).Same (t'.retain p) := by
  intro k
  apply Option.ext
  intro v
  rw [get?_retain_eq_some, get?_retain_eq_some, h k]

theorem Same.containsKey {t t' : Table K V} (h : t.Same t') (k : K) :
    t.containsKey k = t'.containsKey k := by
  unfold Table.containsKey
  rw [h k]

omit [DecidableEq K] in
theorem nodup_toList (t : Table K V) : (t.toList.map Prod.fst).Nodup := by
  have hkeys : t.toList.map Prod.fst = t.entries.map Sigma.fst := by
    unfold toList
    rw [List.map_map]
    rfl
  rw [hkeys]
  exact t.nodupKeys

/-- Only the order of the entries is left open. -/
theorem Same.toList_perm {t t' : Table K V} (h : t.Same t') : t.toList.Perm t'.toList := by
  rw [List.perm_ext_iff_of_nodup (List.Nodup.of_map _ t.nodup_toList)
    (List.Nodup.of_map _ t'.nodup_toList)]
  rintro ⟨k, v⟩
  rw [mem_toList, mem_toList, h k]

/-! Every entry of a table is replaced or dropped, one after the other. -/
section
variable {g : Table K V → K × V → Table K V} {r : K → V → Option V}
  (hg : ∀ t e k, (g t e).get? k = if k = e.1 then r e.1 e.2 else t.get? k)
include hg

theorem get?_foldl_of_notMem (t : Table K V) {es : List (K × V)} {k : K}
    (h : k ∉ es.map Prod.fst) : (es.foldl g t).get? k = t.get? k := by
  induction es generalizing t with
  | nil => rfl
  | cons e es ih =>
    rw [List.map_cons, List.mem_cons, not_or] at h
    rw [List.foldl_cons, ih (g t e) h.2, hg, if_neg h.1]

theorem get?_foldl_of_mem (t : Table K V) {es : List (K × V)} (hnodup : (es.map Prod.fst).Nodup)
    {k : K} {v : V} (h : (k, v) ∈ es) : (es.foldl g t).get? k = r k v := by
  induction es generalizing t with
  | nil => cases h
  | cons e es ih =>
    rw [List.map_cons, List.nodup_cons] at hnodup
    rw [List.foldl_cons]
    rcases List.mem_cons.mp h with rfl | h
    · rw [get?_foldl_of_notMem hg _ hnodup.1, hg, if_pos rfl]
    · exact ih _ hnodup.2 h

theorem get?_foldl_toList (t : Table K V) (k : K) :
    (t.toList.foldl g t).get? k = (t.get? k).bind (r k) := by
  cases hk : t.get? k with
  | none =>
    rw [get?_foldl_of_notMem hg, hk]
    · rfl
    · rw [List.mem_map]
      rintro ⟨⟨_, v⟩, hmem, rfl⟩
      rw [(mem_toList t _ v).mp hmem] at hk
      cases hk
  | some v =>
    rw [get?_foldl_of_mem hg t t.nodup_toList ((mem_toList t k v).mpr hk)]
    rfl

end

end Table

end Boule
