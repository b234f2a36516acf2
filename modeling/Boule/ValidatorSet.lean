import Boule.Basic
import Boule.Lib.Quorum
import Mathlib.Data.List.Sort
import Mathlib.Data.List.Destutter
import Mathlib.Data.List.GetD

/-! Weighted validator sets. -/
namespace Boule
open scoped BigOperators

/-- Members are strictly sorted, so every validator occurs once. A set of `2 ^ 32` or more
members cannot run: `SignerBitmap::new` panics on its length. -/
structure ValidatorSet where
  members : List ValidatorId
  weights : List UInt64
  sorted : members.Pairwise (· < ·)
  weights_length : weights.length = members.length
  weights_ne_zero : ∀ w ∈ weights, w ≠ 0
  length_lt : members.length < 2 ^ 32
  deriving DecidableEq

inductive WeightedSetError where
  | zeroWeight (index : ℕ)
  | tooLarge (length : ℕ)
  deriving DecidableEq

namespace ValidatorSet

def len (vs : ValidatorSet) : ℕ := vs.members.length

def isEmpty (vs : ValidatorSet) : Bool := vs.members.isEmpty

def get? (vs : ValidatorSet) (idx : ℕ) : Option ValidatorId := vs.members[idx]?

/-- Binary search in the sorted member list. -/
def indexOf (vs : ValidatorSet) (id : ValidatorId) : Option ℕ := vs.members.idxOf? id

def contains (vs : ValidatorSet) (id : ValidatorId) : Bool := (vs.indexOf id).isSome

def weightAt (vs : ValidatorSet) (idx : ℕ) : ℕ := (vs.weights.getD idx 0).toNat

def weightFor (vs : ValidatorSet) (id : ValidatorId) : Option ℕ := (vs.indexOf id).map vs.weightAt

def totalWeight (vs : ValidatorSet) : ℕ := (vs.weights.map UInt64.toNat).sum

def iterWeighted (vs : ValidatorSet) : List (ValidatorId × UInt64) := vs.members.zip vs.weights

/-- Stable sort by id, then keep the first of each run of equal ids. -/
def sortEntries (entries : List (ValidatorId × UInt64)) : List (ValidatorId × UInt64) :=
  (entries.insertionSort fun a b => a.1 ≤ b.1).destutter fun a b => a.1 ≠ b.1

theorem nodup_members (vs : ValidatorSet) : vs.members.Nodup :=
  vs.sorted.imp fun h => Nat.ne_of_lt h

theorem indexOf_eq_some_iff (vs : ValidatorSet) (id : ValidatorId) (i : ℕ) :
    vs.indexOf id = some i ↔ vs.members[i]? = some id := by
  unfold indexOf
  constructor
  · intro h
    obtain ⟨hlt, he, -⟩ := List.idxOf?_eq_some_iff.mp h
    rw [List.getElem?_eq_getElem hlt, he]
  · intro h
    obtain ⟨hlt, he⟩ := List.getElem?_eq_some_iff.mp h
    refine List.idxOf?_eq_some_iff.mpr ⟨hlt, he, ?_⟩
    intro j hj hc
    have hji : j = i := vs.nodup_members.getElem_inj_iff.mp (hc.trans he.symm)
    omega

theorem indexOf_lt {vs : ValidatorSet} {id : ValidatorId} {i : ℕ} (h : vs.indexOf id = some i) :
    i < vs.len :=
  (List.getElem?_eq_some_iff.mp ((vs.indexOf_eq_some_iff id i).mp h)).1

theorem indexOf_inj {vs : ValidatorSet} {a b : ValidatorId} {i : ℕ}
    (ha : vs.indexOf a = some i) (hb : vs.indexOf b = some i) : a = b := by
  rw [indexOf_eq_some_iff] at ha hb
  exact Option.some.inj (ha.symm.trans hb)

theorem exists_indexOf (vs : ValidatorSet) {i : ℕ} (h : i < vs.len) :
    ∃ id, vs.indexOf id = some i := by
  refine ⟨vs.members[i], (vs.indexOf_eq_some_iff _ i).mpr ?_⟩
  exact List.getElem?_eq_getElem h

theorem weightAt_eq_getElem (vs : ValidatorSet) {i : ℕ} (h : i < vs.weights.length) :
    vs.weightAt i = vs.weights[i].toNat := by
  unfold weightAt
  rw [List.getD_eq_getElem _ _ h]

theorem weightAt_lt (vs : ValidatorSet) (i : ℕ) : vs.weightAt i < 2 ^ 64 :=
  UInt64.toNat_lt _

/-- The total weight is the weight of all member indices. -/
theorem totalWeight_eq_weight (vs : ValidatorSet) :
    vs.totalWeight = Quorum.weight vs.weightAt (Finset.range vs.len) := by
  have hlen : vs.len = vs.weights.length := vs.weights_length.symm
  rw [Quorum.weight, hlen, totalWeight]
  unfold weightAt
  generalize vs.weights = ws
  induction ws with
  | nil => simp
  | cons w ws ih =>
    rw [List.map_cons, List.sum_cons, ih, List.length_cons, Finset.sum_range_succ']
    simp [Nat.add_comm]

/-- The indices of the members in `S`. -/
def indicesOf (vs : ValidatorSet) (S : Finset ValidatorId) : Finset ℕ :=
  (Finset.range vs.len).filter fun i => ∃ id ∈ S, vs.get? i = some id

theorem weight_lt (vs : ValidatorSet) {A : Finset ℕ} (h : A ⊆ Finset.range vs.len) :
    Quorum.weight vs.weightAt A < 2 ^ 96 := by
  calc Quorum.weight vs.weightAt A ≤ ∑ _i ∈ A, (2 ^ 64 - 1) :=
        Finset.sum_le_sum fun i _ => Nat.le_pred_of_lt (vs.weightAt_lt i)
    _ = A.card * (2 ^ 64 - 1) := by simp
    _ ≤ (2 ^ 32) * (2 ^ 64 - 1) := by
        apply Nat.mul_le_mul_right
        have hc := Finset.card_le_card h
        rw [Finset.card_range] at hc
        exact hc.trans vs.length_lt.le
    _ < 2 ^ 96 := by omega

private theorem pairwise_lt_of_isChain_ne {l : List (ValidatorId × UInt64)}
    (hle : l.Pairwise fun a b => a.1 ≤ b.1) (hne : l.IsChain fun a b => a.1 ≠ b.1) :
    l.Pairwise fun a b => a.1 < b.1 := by
  induction l with
  | nil => exact .nil
  | cons a l ih =>
    obtain ⟨ha, hl⟩ := List.pairwise_cons.mp hle
    refine List.pairwise_cons.mpr ⟨?_, ih hl hne.tail⟩
    intro c hc
    cases l with
    | nil => simp at hc
    | cons b l =>
      have hab : a.1 < b.1 :=
        lt_of_le_of_ne (ha b List.mem_cons_self) (List.isChain_cons_cons.mp hne).1
      rcases List.mem_cons.mp hc with rfl | hc
      · exact hab
      · exact lt_of_lt_of_le hab ((List.pairwise_cons.mp hl).1 c hc)

theorem pairwise_sortEntries (entries : List (ValidatorId × UInt64)) :
    (sortEntries entries).Pairwise fun a b => a.1 < b.1 :=
  pairwise_lt_of_isChain_ne
    ((List.pairwise_insertionSort (fun a b : ValidatorId × UInt64 => a.1 ≤ b.1) entries).sublist
      (List.destutter_sublist _ _))
    (List.isChain_destutter _ _)

theorem sortEntries_subset {entries : List (ValidatorId × UInt64)} {e : ValidatorId × UInt64}
    (h : e ∈ sortEntries entries) : e ∈ entries :=
  (List.mem_insertionSort _).mp ((List.destutter_sublist _ _).subset h)

theorem length_sortEntries_le (entries : List (ValidatorId × UInt64)) :
    (sortEntries entries).length ≤ entries.length :=
  (List.destutter_sublist _ _).length_le.trans (List.length_insertionSort _ _).le

/-- Weight zero is rejected first, with the index of the first such entry. -/
def withWeights (entries : List (ValidatorId × UInt64)) : Except WeightedSetError ValidatorSet :=
  if hz : ∀ e ∈ entries, e.2 ≠ 0 then
    if hl : entries.length < 2 ^ 32 then
      .ok
        { members := (sortEntries entries).map Prod.fst
          weights := (sortEntries entries).map Prod.snd
          sorted := List.pairwise_map.mpr (pairwise_sortEntries entries)
          weights_length := by simp
          weights_ne_zero := by
            intro w hw
            obtain ⟨e, he, rfl⟩ := List.mem_map.mp hw
            exact hz e (sortEntries_subset he)
          length_lt := by
            rw [List.length_map]
            exact lt_of_le_of_lt (length_sortEntries_le entries) hl }
    else .error (.tooLarge entries.length)
  else .error (.zeroWeight (entries.findIdx fun e => e.2 == 0))

theorem sortEntries_of_pairwise {entries : List (ValidatorId × UInt64)}
    (h : entries.Pairwise fun a b => a.1 < b.1) : sortEntries entries = entries := by
  have hsort : entries.insertionSort (fun a b => a.1 ≤ b.1) = entries :=
    List.Pairwise.insertionSort_eq (h.imp Nat.le_of_lt)
  have hchain : entries.IsChain fun a b => a.1 ≠ b.1 :=
    (h.imp fun hlt => Nat.ne_of_lt hlt).isChain
  unfold sortEntries
  rw [hsort]
  exact List.destutter_of_isChain _ _ hchain

/-- A set is rebuilt from its own entries. -/
theorem withWeights_iterWeighted (vs : ValidatorSet) : withWeights vs.iterWeighted = .ok vs := by
  have hfst : vs.iterWeighted.map Prod.fst = vs.members :=
    List.map_fst_zip vs.weights_length.ge
  have hsnd : vs.iterWeighted.map Prod.snd = vs.weights :=
    List.map_snd_zip vs.weights_length.le
  have hsort : sortEntries vs.iterWeighted = vs.iterWeighted := by
    apply sortEntries_of_pairwise
    have hs := vs.sorted
    rw [← hfst, List.pairwise_map] at hs
    exact hs
  have hz : ∀ e ∈ vs.iterWeighted, e.2 ≠ 0 := by
    intro e he
    apply vs.weights_ne_zero
    rw [← hsnd]
    exact List.mem_map_of_mem he
  have hl : vs.iterWeighted.length < 2 ^ 32 := by
    rw [← List.length_map (f := Prod.fst), hfst]
    exact vs.length_lt
  unfold withWeights
  rw [dif_pos hz, dif_pos hl]
  simp only [hsort, hfst, hsnd]

end ValidatorSet

end Boule
