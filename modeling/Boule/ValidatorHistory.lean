import Boule.ValidatorSet
import Boule.Lib.Search

/-! Validator sets by view. -/
namespace Boule

structure Boundary where
  vEff : ℕ
  set : ValidatorSet
  deriving DecidableEq

/-- The first boundary is at view zero and later ones have strictly larger views. -/
structure ValidatorSetHistory where
  boundaries : List Boundary
  head_zero : boundaries.head?.map Boundary.vEff = some 0
  sorted : (boundaries.map Boundary.vEff).Pairwise (· < ·)
  deriving DecidableEq

namespace ValidatorSetHistory

theorem boundaries_ne_nil (h : ValidatorSetHistory) : h.boundaries ≠ [] := by
  intro hn
  have := h.head_zero
  simp [hn] at this

def fromGenesis (genesis : ValidatorSet) : ValidatorSetHistory where
  boundaries := [⟨0, genesis⟩]
  head_zero := rfl
  sorted := by simp

theorem floorIndex_lt_length (h : ValidatorSetHistory) (view : ℕ) :
    Search.floorIndex (h.boundaries.map Boundary.vEff) view < h.boundaries.length := by
  have hn : h.boundaries.map Boundary.vEff ≠ [] := by simpa using h.boundaries_ne_nil
  simpa using Search.floorIndex_lt hn view

def setAt (h : ValidatorSetHistory) (view : ℕ) : ValidatorSet :=
  (h.boundaries.get ⟨Search.floorIndex (h.boundaries.map Boundary.vEff) view,
    h.floorIndex_lt_length view⟩).set

def last (h : ValidatorSetHistory) : Boundary := h.boundaries.getLast h.boundaries_ne_nil

theorem vEff_le_last (h : ValidatorSetHistory) {v : ℕ}
    (hv : v ∈ h.boundaries.map Boundary.vEff) : v ≤ h.last.vEff := by
  have hg : (h.boundaries.map Boundary.vEff).getLast (by simpa using h.boundaries_ne_nil) =
      h.last.vEff := List.getLast_map _
  rw [← hg]
  exact (h.sorted.imp Nat.le_of_lt).rel_getLast hv

/-- Fails with the latest boundary's view unless `vEff` is strictly greater. -/
def insertBoundary (h : ValidatorSetHistory) (vEff : ℕ) (set : ValidatorSet) :
    Except ℕ ValidatorSetHistory :=
  if hv : vEff ≤ h.last.vEff then .error h.last.vEff
  else
    .ok
      { boundaries := h.boundaries ++ [⟨vEff, set⟩]
        head_zero := by rw [List.head?_append_of_ne_nil _ h.boundaries_ne_nil, h.head_zero]
        sorted := by
          rw [List.map_append, List.pairwise_append]
          refine ⟨h.sorted, by simp, ?_⟩
          intro a ha b hb
          have hb' : b = vEff := by simpa using hb
          have := h.vEff_le_last ha
          omega }

def currentSet (h : ValidatorSetHistory) : ValidatorSet := h.last.set

def iter (h : ValidatorSetHistory) : List (ℕ × ValidatorSet) :=
  h.boundaries.map fun b => (b.vEff, b.set)

@[simp] theorem setAt_fromGenesis (vs : ValidatorSet) (v : ℕ) :
    (fromGenesis vs).setAt v = vs := by
  unfold setAt fromGenesis
  simp

theorem setAt_eq_lastLe (h : ValidatorSetHistory) (v : ℕ) :
    some (h.setAt v) = Search.lastLe h.iter v := by
  have hk : h.iter.map Prod.fst = h.boundaries.map Boundary.vEff := by
    simp [iter, Function.comp_def]
  have hh : ∃ e ∈ h.iter.head?, e.1 ≤ v := by
    have hz := h.head_zero
    unfold iter
    rw [List.head?_map]
    cases hb : h.boundaries.head? with
    | none => simp [hb] at hz
    | some b =>
      have hb0 : b.vEff = 0 := by simpa [hb] using hz
      exact ⟨(b.vEff, b.set), rfl, by omega⟩
  rw [← Search.getElem?_floorIndex (hk ▸ h.sorted) hh, hk]
  have hi := h.floorIndex_lt_length v
  unfold iter setAt
  rw [List.getElem?_map, List.getElem?_eq_getElem hi]
  rfl

theorem insertBoundary_eq_ok {h h' : ValidatorSetHistory} {vEff : ℕ} {set : ValidatorSet}
    (hi : h.insertBoundary vEff set = .ok h') :
    h.last.vEff < vEff ∧ h'.iter = h.iter ++ [(vEff, set)] := by
  unfold insertBoundary at hi
  split_ifs at hi with hv
  rw [← Except.ok.inj hi]
  exact ⟨by omega, by simp [iter]⟩

/-- Inserting a boundary leaves every earlier view's set unchanged. -/
theorem setAt_insertBoundary_of_lt {h h' : ValidatorSetHistory} {vEff v : ℕ}
    {set : ValidatorSet} (hi : h.insertBoundary vEff set = .ok h') (hv : v < vEff) :
    h'.setAt v = h.setAt v := by
  apply Option.some.inj
  rw [setAt_eq_lastLe, setAt_eq_lastLe, (insertBoundary_eq_ok hi).2]
  exact Search.lastLe_append_of_lt hv set

/-- From its view on, the inserted set is in force. -/
theorem setAt_insertBoundary_of_le {h h' : ValidatorSetHistory} {vEff v : ℕ}
    {set : ValidatorSet} (hi : h.insertBoundary vEff set = .ok h') (hv : vEff ≤ v) :
    h'.setAt v = set := by
  apply Option.some.inj
  rw [setAt_eq_lastLe, (insertBoundary_eq_ok hi).2]
  exact Search.lastLe_append_of_le hv set

theorem eq_of_boundaries {h h' : ValidatorSetHistory} (hb : h.boundaries = h'.boundaries) :
    h = h' := by
  cases h
  cases h'
  congr

theorem insertBoundary_of_lt {h : ValidatorSetHistory} {vEff : ℕ} (hv : h.last.vEff < vEff)
    (set : ValidatorSet) : ∃ h', h.insertBoundary vEff set = .ok h' ∧
      h'.boundaries = h.boundaries ++ [⟨vEff, set⟩] := by
  unfold insertBoundary
  rw [dif_neg (by omega)]
  exact ⟨_, rfl, rfl⟩

theorem last_of_insertBoundary {h h' : ValidatorSetHistory} {vEff : ℕ} {set : ValidatorSet}
    (hi : h.insertBoundary vEff set = .ok h') : h'.last = ⟨vEff, set⟩ := by
  unfold insertBoundary at hi
  split_ifs at hi
  rw [← Except.ok.inj hi]
  exact List.getLast_append_singleton _

theorem setAt_of_last_le {h : ValidatorSetHistory} {v : ℕ} (hv : h.last.vEff ≤ v) :
    h.setAt v = h.currentSet := by
  have hiter : h.iter = h.boundaries.dropLast.map (fun b => (b.vEff, b.set)) ++
      [(h.last.vEff, h.last.set)] := by
    conv_lhs => rw [iter, ← List.dropLast_append_getLast h.boundaries_ne_nil]
    rw [List.map_append]
    rfl
  apply Option.some.inj
  rw [setAt_eq_lastLe, hiter]
  exact Search.lastLe_append_of_le hv _

/-- The history with the boundary, if it takes it. -/
def extend (h : ValidatorSetHistory) (vEff : ℕ) (set : ValidatorSet) : ValidatorSetHistory :=
  (h.insertBoundary vEff set).toOption.getD h

theorem extend_of_insertBoundary {h h' : ValidatorSetHistory} {vEff : ℕ} {set : ValidatorSet}
    (hi : h.insertBoundary vEff set = .ok h') : h.extend vEff set = h' := by
  unfold extend
  rw [hi]
  rfl

theorem extend_of_le {h : ValidatorSetHistory} {vEff : ℕ} (hv : vEff ≤ h.last.vEff)
    (set : ValidatorSet) : h.extend vEff set = h := by
  unfold extend insertBoundary
  rw [dif_pos hv]
  rfl

/-- A boundary leaves the set of a view as it is exactly when it is not taken, when it is
above the view, or when it repeats the current set. -/
theorem setAt_extend_iff {h : ValidatorSetHistory} {vEff v : ℕ} {set : ValidatorSet} :
    (h.extend vEff set).setAt v = h.setAt v ↔
      (h.last.vEff < vEff → vEff ≤ v → set = h.currentSet) := by
  by_cases hl : h.last.vEff < vEff
  · obtain ⟨h', hi, -⟩ := insertBoundary_of_lt hl set
    rw [extend_of_insertBoundary hi]
    by_cases hv : vEff ≤ v
    · rw [setAt_insertBoundary_of_le hi hv, setAt_of_last_le (by omega)]
      simp [hl, hv]
    · rw [setAt_insertBoundary_of_lt hi (by omega)]
      simp [hv]
  · rw [extend_of_le (by omega)]
    simp [hl]

end ValidatorSetHistory

/-! ### The persisted form -/

structure PersistedBoundary where
  vEff : ℕ
  members : List NodeId
  weights : List UInt64
  deriving DecidableEq

structure PersistedValidatorHistory where
  boundaries : List PersistedBoundary
  deriving DecidableEq

inductive PersistedHistoryError where
  | empty
  | firstBoundaryNotZero (vEff : ℕ)
  | lengthMismatch (vEff members weights : ℕ)
  | invalidSet (vEff : ℕ) (error : WeightedSetError)
  | notIncreasing (last : ℕ)
  deriving DecidableEq

def boundaryToSet (b : PersistedBoundary) : Except PersistedHistoryError ValidatorSet := do
  require (b.members.length = b.weights.length)
    (.lengthMismatch b.vEff b.members.length b.weights.length)
  (ValidatorSet.withWeights (b.members.zip b.weights)).mapError (.invalidSet b.vEff)

namespace ValidatorSetHistory

def toPersisted (h : ValidatorSetHistory) : PersistedValidatorHistory :=
  ⟨h.boundaries.map fun b => ⟨b.vEff, b.set.members, b.set.weights⟩⟩

def fromPersisted (persisted : PersistedValidatorHistory) :
    Except PersistedHistoryError ValidatorSetHistory :=
  match persisted.boundaries with
  | [] => .error .empty
  | genesis :: rest => do
    require (genesis.vEff = 0) (.firstBoundaryNotZero genesis.vEff)
    let set ← boundaryToSet genesis
    rest.foldlM (fun history b => do
      let set ← boundaryToSet b
      (history.insertBoundary b.vEff set).mapError .notIncreasing) (fromGenesis set)

theorem boundaryToSet_persisted (b : Boundary) :
    boundaryToSet ⟨b.vEff, b.set.members, b.set.weights⟩ = .ok b.set := by
  refine bind_eq_ok.mpr ⟨(), require_eq_ok.mpr (by simpa using b.set.weights_length.symm), ?_⟩
  show (ValidatorSet.withWeights b.set.iterWeighted).mapError _ = _
  rw [ValidatorSet.withWeights_iterWeighted]
  rfl

theorem last_lt_of_sorted {h : ValidatorSetHistory} {b : Boundary} {bs : List Boundary}
    (hs : ((h.boundaries ++ b :: bs).map Boundary.vEff).Pairwise (· < ·)) :
    h.last.vEff < b.vEff := by
  rw [List.map_append, List.pairwise_append] at hs
  apply hs.2.2
  · exact List.mem_map_of_mem (List.getLast_mem h.boundaries_ne_nil)
  · simp

/-- The boundaries of a sorted list are taken one after the other. -/
theorem foldlM_insertBoundary {h : ValidatorSetHistory} {bs : List Boundary}
    (hs : ((h.boundaries ++ bs).map Boundary.vEff).Pairwise (· < ·)) :
    ∃ h', (bs.map fun b => (⟨b.vEff, b.set.members, b.set.weights⟩ : PersistedBoundary)).foldlM
      (fun (history : ValidatorSetHistory) b => do
        let set ← boundaryToSet b
        (history.insertBoundary b.vEff set).mapError .notIncreasing) h = .ok h' ∧
      h'.boundaries = h.boundaries ++ bs := by
  induction bs generalizing h with
  | nil => exact ⟨h, rfl, by simp⟩
  | cons b bs ih =>
    obtain ⟨h₁, hi, hb₁⟩ := insertBoundary_of_lt (last_lt_of_sorted hs) b.set
    have hb₂ : h₁.boundaries ++ bs = h.boundaries ++ b :: bs := by
      rw [hb₁, List.append_assoc, List.singleton_append]
    obtain ⟨h', hf, hb'⟩ := ih (hb₂ ▸ hs)
    refine ⟨h', ?_, hb'.trans hb₂⟩
    rw [List.map_cons, List.foldlM_cons]
    refine bind_eq_ok.mpr ⟨h₁, bind_eq_ok.mpr ⟨b.set, boundaryToSet_persisted b, ?_⟩, hf⟩
    rw [hi]
    rfl

theorem exists_boundaries_eq_cons (h : ValidatorSetHistory) :
    ∃ set bs, h.boundaries = ⟨0, set⟩ :: bs := by
  have hz := h.head_zero
  cases hb : h.boundaries with
  | nil => exact absurd hb h.boundaries_ne_nil
  | cons b bs =>
    rw [hb] at hz
    obtain ⟨vEff, set⟩ := b
    obtain rfl : vEff = 0 := by simpa using hz
    exact ⟨set, bs, rfl⟩

/-- A history is read back as it was written. -/
theorem fromPersisted_toPersisted (h : ValidatorSetHistory) :
    fromPersisted h.toPersisted = .ok h := by
  obtain ⟨set, bs, hb⟩ := h.exists_boundaries_eq_cons
  have hs : (((fromGenesis set).boundaries ++ bs).map Boundary.vEff).Pairwise (· < ·) := by
    have hs := h.sorted
    rw [hb] at hs
    exact hs
  obtain ⟨h', hf, hb'⟩ := foldlM_insertBoundary hs
  have he : h' = h := eq_of_boundaries (hb'.trans hb.symm)
  rw [he] at hf
  unfold fromPersisted toPersisted
  rw [hb, List.map_cons]
  exact bind_eq_ok.mpr ⟨(), require_eq_ok.mpr (by simp),
    bind_eq_ok.mpr ⟨set, boundaryToSet_persisted ⟨0, set⟩, hf⟩⟩

end ValidatorSetHistory

end Boule
