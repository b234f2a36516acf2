import Boule.Rotation

/-! Consensus parameters by view, and the updates of them that blocks carry. -/
namespace Boule

/-- `b"CPARM\0"` -/
def paramUpdateTag : Bytes := [0x43, 0x50, 0x41, 0x52, 0x4d, 0x00]

def minParamVEffDelay : ℕ := 2

structure ConsensusParams where
  minBlockIntervalMs : ℕ
  deriving DecidableEq

structure ConsensusParamUpdate where
  minBlockIntervalMs : Option ℕ
  vEff : ℕ
  deriving DecidableEq

inductive ParamUpdateError where
  | malformed
  | changesNothing
  | floorOverflow
  | tooSoon (vEff floor blockView delay : ℕ)
  | notAfterLast (vEff last : ℕ)
  | atGenesis
  deriving DecidableEq

namespace ConsensusParamUpdate

def isEmpty (u : ConsensusParamUpdate) : Bool := u.minBlockIntervalMs.isNone

def applyTo (u : ConsensusParamUpdate) (base : ConsensusParams) : ConsensusParams :=
  ⟨u.minBlockIntervalMs.getD base.minBlockIntervalMs⟩

def validateAgainst (u : ConsensusParamUpdate) (blockView : ℕ) : Except ParamUpdateError Unit := do
  require (!u.isEmpty) .changesNothing
  let floor ← okOr (checkedAddU64 blockView minParamVEffDelay) .floorOverflow
  require (floor ≤ u.vEff) (.tooSoon u.vEff floor blockView minParamVEffDelay)

end ConsensusParamUpdate

/-- Boundaries are after genesis, each after the one before. -/
structure ConsensusParamHistory where
  genesis : ConsensusParams
  boundaries : List (ℕ × ConsensusParams)
  sorted : (0 :: boundaries.map Prod.fst).Pairwise (· < ·)
  deriving DecidableEq

structure PersistedParamBoundary where
  vEff : ℕ
  params : ConsensusParams
  deriving DecidableEq

structure PersistedConsensusParamHistory where
  genesis : ConsensusParams
  boundaries : List PersistedParamBoundary
  deriving DecidableEq

namespace ConsensusParamHistory

def new (genesis : ConsensusParams) : ConsensusParamHistory where
  genesis := genesis
  boundaries := []
  sorted := by simp

/-- `at` -/
def paramsAt (h : ConsensusParamHistory) (view : ℕ) : ConsensusParams :=
  ((h.boundaries.reverse.find? fun b => b.1 ≤ view).map Prod.snd).getD h.genesis

def latest (h : ConsensusParamHistory) : ConsensusParams :=
  (h.boundaries.getLast?.map Prod.snd).getD h.genesis

/-- The view of the last boundary, of genesis when there is none. -/
def lastView (h : ConsensusParamHistory) : ℕ := (h.boundaries.getLast?.map Prod.fst).getD 0

theorem sorted_append {h : ConsensusParamHistory} {vEff : ℕ} (hlt : h.lastView < vEff)
    (params : ConsensusParams) :
    (0 :: (h.boundaries ++ [(vEff, params)]).map Prod.fst).Pairwise (· < ·) := by
  have hs := h.sorted
  unfold lastView at hlt
  rw [List.map_append, List.map_singleton, ← List.cons_append, List.pairwise_append]
  refine ⟨hs, List.pairwise_singleton _ _, ?_⟩
  intro v hv w hw
  rw [List.mem_singleton.mp hw]
  cases hl : h.boundaries.getLast? with
  | none =>
    rw [hl] at hlt
    rw [List.getLast?_eq_none_iff.mp hl] at hv
    rw [List.mem_singleton.mp hv]
    exact hlt
  | some last =>
    rw [hl] at hlt
    obtain ⟨init, hinit⟩ := List.getLast?_eq_some_iff.mp hl
    have hlast : last.1 < vEff := hlt
    rw [hinit, List.map_append, List.map_singleton, ← List.cons_append,
      List.pairwise_append] at hs
    rw [hinit, List.map_append, List.map_singleton, ← List.cons_append] at hv
    rcases List.mem_append.mp hv with hv | hv
    · exact (hs.2.2 v hv last.1 (List.mem_singleton_self _)).trans hlast
    · rw [List.mem_singleton.mp hv]
      exact hlast

def insertBoundary (h : ConsensusParamHistory) (vEff : ℕ) (params : ConsensusParams) :
    Except ParamUpdateError ConsensusParamHistory :=
  if hlt : h.lastView < vEff then
    .ok { h with
      boundaries := h.boundaries ++ [(vEff, params)]
      sorted := sorted_append hlt params }
  else .error (if h.boundaries.isEmpty then .atGenesis else .notAfterLast vEff h.lastView)

def toPersisted (h : ConsensusParamHistory) : PersistedConsensusParamHistory where
  genesis := h.genesis
  boundaries := h.boundaries.map fun b => ⟨b.1, b.2⟩

def fromPersisted (persisted : PersistedConsensusParamHistory) :
    Except ParamUpdateError ConsensusParamHistory :=
  persisted.boundaries.foldlM (fun h b => h.insertBoundary b.vEff b.params)
    (.new persisted.genesis)

theorem ext_boundaries {h h' : ConsensusParamHistory} (hg : h.genesis = h'.genesis)
    (hb : h.boundaries = h'.boundaries) : h = h' := by
  obtain ⟨g, bs, s⟩ := h
  obtain ⟨g', bs', s'⟩ := h'
  obtain rfl : g = g' := hg
  obtain rfl : bs = bs' := hb
  rfl

/-- Boundaries that go on from those of a history are inserted one after the other. -/
theorem foldlM_insertBoundary {h h' : ConsensusParamHistory} {bs : List (ℕ × ConsensusParams)}
    (hg : h'.genesis = h.genesis) (hb : h'.boundaries = h.boundaries ++ bs) :
    (bs.map fun b => (⟨b.1, b.2⟩ : PersistedParamBoundary)).foldlM
      (fun h b => h.insertBoundary b.vEff b.params) h = .ok h' := by
  induction bs generalizing h with
  | nil =>
    rw [List.append_nil] at hb
    exact congrArg Except.ok (ext_boundaries hg.symm hb.symm)
  | cons b bs ih =>
    have hlt : h.lastView < b.1 := by
      have hs := h'.sorted
      rw [hb, List.map_append, List.map_cons, ← List.cons_append, List.pairwise_append] at hs
      have hall := fun v hv => hs.2.2 v hv b.1 (List.mem_cons_self ..)
      unfold lastView
      cases hl : h.boundaries.getLast? with
      | none => exact hall 0 (List.mem_cons_self ..)
      | some last =>
        have hmem := List.mem_map_of_mem (f := Prod.fst) (List.mem_of_getLast? hl)
        exact hall last.1 (List.mem_cons_of_mem _ hmem)
    rw [List.map_cons, List.foldlM_cons]
    refine bind_eq_ok.mpr ⟨_, dif_pos hlt, ih hg ?_⟩
    rw [hb, List.append_assoc, List.singleton_append]

theorem fromPersisted_toPersisted (h : ConsensusParamHistory) :
    fromPersisted h.toPersisted = .ok h :=
  foldlM_insertBoundary (h := .new h.genesis) rfl rfl

theorem toPersisted_injective {h h' : ConsensusParamHistory}
    (he : h.toPersisted = h'.toPersisted) : h = h' := by
  have hround := fromPersisted_toPersisted h
  rw [he, fromPersisted_toPersisted h'] at hround
  exact (Except.ok.inj hround).symm

end ConsensusParamHistory

/-- An update, if the command is one, and whether it was. -/
def applyParamUpdateCommand (decode : Bytes → Option ConsensusParamUpdate) (blockView : ℕ)
    (h : ConsensusParamHistory) (bytes : Bytes) :
    Except ParamUpdateError (ConsensusParamHistory × Bool) :=
  if !paramUpdateTag.isPrefixOf bytes then .ok (h, false)
  else do
    let cmd ← okOr (decodeTagged paramUpdateTag decode bytes) .malformed
    cmd.validateAgainst blockView
    let h ← h.insertBoundary cmd.vEff (cmd.applyTo h.latest)
    return (h, true)

theorem applyParamUpdateCommand_unchanged {decode : Bytes → Option ConsensusParamUpdate}
    {blockView : ℕ} {h h' : ConsensusParamHistory} {bytes : Bytes}
    (hc : applyParamUpdateCommand decode blockView h bytes = .ok (h', false)) : h' = h := by
  unfold applyParamUpdateCommand at hc
  split_ifs at hc
  · exact (congrArg Prod.fst (Except.ok.inj hc)).symm
  · obtain ⟨cmd, -, hc⟩ := bind_eq_ok.mp hc
    obtain ⟨_, -, hc⟩ := bind_eq_ok.mp hc
    obtain ⟨_, -, hc⟩ := bind_eq_ok.mp hc
    cases congrArg Prod.snd (Except.ok.inj hc)

end Boule
