import Boule.ConsensusParams
import Boule.NextMembers
import Boule.Node.KeyRuns

/-! Histories that are written and read back, and persisted forms that are read and written
back. -/
namespace Boule

/-! ### Sets -/

/-- Every set lists its members in the order of their ids, each once. -/
def PersistedValidatorHistory.Canonical (p : PersistedValidatorHistory) : Prop :=
  ∀ b ∈ p.boundaries, b.members.Pairwise (· < ·)

namespace ValidatorSetHistory

theorem boundaryToSet_canonical_iff {b : PersistedBoundary} {set : ValidatorSet}
    (h : boundaryToSet b = .ok set) :
    (⟨b.vEff, set.members, set.weights⟩ : PersistedBoundary) = b ↔
      b.members.Pairwise (· < ·) := by
  obtain ⟨_, hlen, hset⟩ := bind_eq_ok.mp h
  have hlen : b.members.length = b.weights.length := of_decide_eq_true (require_eq_ok.mp hlen)
  constructor
  · intro he
    have hmembers : set.members = b.members := congrArg PersistedBoundary.members he
    rw [← hmembers]
    exact set.sorted
  · intro hs
    have hsorted : (b.members.zip b.weights).Pairwise fun x y => x.1 < y.1 := by
      rw [← List.map_fst_zip hlen.le, List.pairwise_map] at hs
      exact hs
    have hiter : set.iterWeighted = b.members.zip b.weights :=
      (ValidatorSet.iterWeighted_of_withWeights (mapError_eq_ok.mp hset)).trans
        (ValidatorSet.sortEntries_of_pairwise hsorted)
    have hmembers : set.members = b.members := by
      rw [← set.map_fst_iterWeighted, hiter, List.map_fst_zip hlen.le]
    have hweights : set.weights = b.weights := by
      have hsnd : set.iterWeighted.map Prod.snd = set.weights :=
        List.map_snd_zip set.weights_length.le
      rw [← hsnd, hiter, List.map_snd_zip hlen.ge]
    rw [hmembers, hweights]

/-- A boundary that is read from a persisted one. -/
def ReadFrom (s : Boundary) (b : PersistedBoundary) : Prop :=
  s.vEff = b.vEff ∧ boundaryToSet b = .ok s.set

theorem boundaries_of_foldlM {h h' : ValidatorSetHistory} {bs : List PersistedBoundary}
    (hf : bs.foldlM (fun (history : ValidatorSetHistory) b => do
      let set ← boundaryToSet b
      (history.insertBoundary b.vEff set).mapError .notIncreasing) h = .ok h') :
    ∃ read, h'.boundaries = h.boundaries ++ read ∧ List.Forall₂ ReadFrom read bs := by
  induction bs generalizing h with
  | nil =>
    rw [← Except.ok.inj hf]
    exact ⟨[], (List.append_nil _).symm, .nil⟩
  | cons b bs ih =>
    rw [List.foldlM_cons] at hf
    obtain ⟨h₁, hstep, hf⟩ := bind_eq_ok.mp hf
    obtain ⟨set, hset, hstep⟩ := bind_eq_ok.mp hstep
    have hinsert := mapError_eq_ok.mp hstep
    have hboundaries : h₁.boundaries = h.boundaries ++ [⟨b.vEff, set⟩] := by
      unfold insertBoundary at hinsert
      split_ifs at hinsert
      rw [← Except.ok.inj hinsert]
    obtain ⟨read, hread, hall⟩ := ih hf
    refine ⟨⟨b.vEff, set⟩ :: read, ?_, .cons ⟨rfl, hset⟩ hall⟩
    rw [hread, hboundaries, List.append_assoc, List.singleton_append]

theorem readFrom_of_fromPersisted {p : PersistedValidatorHistory} {h : ValidatorSetHistory}
    (hp : fromPersisted p = .ok h) : List.Forall₂ ReadFrom h.boundaries p.boundaries := by
  unfold fromPersisted at hp
  cases hb : p.boundaries with
  | nil =>
    rw [hb] at hp
    cases hp
  | cons genesis rest =>
    rw [hb] at hp
    obtain ⟨_, hzero, hp⟩ := bind_eq_ok.mp hp
    obtain ⟨set, hset, hp⟩ := bind_eq_ok.mp hp
    have hzero : genesis.vEff = 0 := of_decide_eq_true (require_eq_ok.mp hzero)
    obtain ⟨read, hread, hall⟩ := boundaries_of_foldlM hp
    rw [hread]
    exact .cons ⟨hzero.symm, hset⟩ hall

/-- What is read is written back as it was exactly when it was canonical. -/
theorem toPersisted_eq_iff {p : PersistedValidatorHistory} {h : ValidatorSetHistory}
    (hp : fromPersisted p = .ok h) : h.toPersisted = p ↔ p.Canonical := by
  have hlists : ∀ {read : List Boundary} {bs : List PersistedBoundary},
      List.Forall₂ ReadFrom read bs →
        (read.map (fun b => (⟨b.vEff, b.set.members, b.set.weights⟩ : PersistedBoundary)) = bs ↔
          ∀ b ∈ bs, b.members.Pairwise (· < ·)) := by
    intro read bs hall
    induction hall with
    | nil => simp
    | @cons s b read bs hs _ ih =>
      rw [List.map_cons, List.cons.injEq, ih, List.forall_mem_cons, hs.1,
        boundaryToSet_canonical_iff hs.2]
  have hsame : h.toPersisted = p ↔ h.toPersisted.boundaries = p.boundaries := by
    cases p
    simp [toPersisted]
  rw [hsame]
  exact hlists (readFrom_of_fromPersisted hp)

end ValidatorSetHistory

/-! ### Keys -/

/-- The validators are in the order of their ids, each once. -/
def PersistedKeyHistory.Canonical (p : PersistedKeyHistory) : Prop :=
  p.validators.Pairwise fun v v' => v.stableId < v'.stableId

theorem pairwise_sortedEntries (t : Table NodeId (List KeyEntry)) :
    (sortedEntries t).Pairwise fun a b => a.1 < b.1 := by
  have hle : (sortedEntries t).Pairwise fun a b => a.1 ≤ b.1 :=
    List.pairwise_insertionSort (fun a b : NodeId × List KeyEntry => a.1 ≤ b.1) _
  have hne := List.pairwise_map.mp (nodup_sortedEntries t)
  exact (hle.and hne).imp fun h => lt_of_le_of_ne h.1 h.2

theorem canonical_persistKeys (t : Table NodeId (List KeyEntry)) : (persistKeys t).Canonical :=
  List.pairwise_map.mpr (pairwise_sortedEntries t)

theorem pairwise_of_checkIncreasing {stableId : NodeId} {entries : List KeyEntry} {prev : Option ℕ}
    {u : Unit} (h : checkIncreasing stableId prev entries = .ok u) :
    (∀ p ∈ prev, ∀ e ∈ entries, p < e.vEff) ∧
      entries.Pairwise fun e e' => e.vEff < e'.vEff := by
  induction entries generalizing prev with
  | nil => exact ⟨by simp, .nil⟩
  | cons e entries ih =>
    obtain ⟨_, hlt, hrest⟩ := bind_eq_ok.mp h
    obtain ⟨hlater, hsorted⟩ := ih hrest
    refine ⟨fun p hp e' he' => ?_, .cons (hlater e.vEff rfl) hsorted⟩
    have hfirst : p < e.vEff := by
      have hall := require_eq_ok.mp hlt
      rw [Option.mem_def.mp hp] at hall
      simpa using hall
    rcases List.mem_cons.mp he' with rfl | he'
    · exact hfirst
    · exact hfirst.trans (hlater e.vEff rfl e' he')

theorem entries_of_restoreKeys {p : PersistedKeyHistory} {t : Table NodeId (List KeyEntry)}
    (h : restoreKeys p = .ok t) : ∀ v ∈ p.validators,
      v.entries ≠ [] ∧ v.entries.Pairwise fun e e' => e.vEff < e'.vEff := by
  intro v hv
  obtain ⟨_, _, hstep⟩ := ok_of_foldlM h hv
  obtain ⟨_, hne, hstep⟩ := bind_eq_ok.mp hstep
  obtain ⟨_, hsorted, -⟩ := bind_eq_ok.mp hstep
  refine ⟨?_, (pairwise_of_checkIncreasing hsorted).2⟩
  have hnonempty := require_eq_ok.mp hne
  simpa using hnonempty

/-- The validators of a persisted form as a table lists them. -/
def PersistedKeyHistory.listed (p : PersistedKeyHistory) : List (NodeId × List KeyEntry) :=
  p.validators.map fun v => (v.stableId, v.entries)

theorem PersistedKeyHistory.map_listed (p : PersistedKeyHistory) :
    p.listed.map (fun e => (⟨e.1, e.2⟩ : PersistedValidator)) = p.validators := by
  unfold listed
  rw [List.map_map]
  exact List.map_id _

/-- What is read is written back as it was exactly when it was canonical. -/
theorem persistKeys_eq_iff {p : PersistedKeyHistory} {t : Table NodeId (List KeyEntry)}
    (h : restoreKeys p = .ok t) : persistKeys t = p ↔ p.Canonical := by
  constructor
  · intro hp
    rw [← hp]
    exact canonical_persistKeys t
  · intro hcanonical
    have hsorted : p.listed.Pairwise fun a b => a.1 < b.1 := List.pairwise_map.mpr hcanonical
    have hnodup : (p.listed.map Prod.fst).Nodup :=
      List.pairwise_map.mpr (hsorted.imp fun hlt => Nat.ne_of_lt hlt)
    have hordered : ∀ e ∈ p.listed, e.2 ≠ [] ∧ e.2.Pairwise fun a b => a.vEff < b.vEff := by
      intro e he
      obtain ⟨v, hv, rfl⟩ := List.mem_map.mp he
      exact entries_of_restoreKeys h v hv
    obtain ⟨t', hfold, hholds⟩ := restoreKeys_listed hnodup hordered ∅
    rw [p.map_listed] at hfold
    obtain rfl := Except.ok.inj (h.symm.trans hfold)
    have hmem : ∀ e, e ∈ sortedEntries t ↔ e ∈ p.listed := by
      intro e
      constructor
      · intro he
        have hget := mem_sortedEntries.mp he
        by_contra hnot
        by_cases hid : e.1 ∈ p.listed.map Prod.fst
        · obtain ⟨e', he', hid'⟩ := List.mem_map.mp hid
          have hget' := hholds.1 e' he'
          rw [hid', hget] at hget'
          have hsame : e = e' := Prod.ext hid'.symm (Option.some.inj hget')
          exact hnot (hsame ▸ he')
        · rw [hholds.2 e.1 hid, Table.get?_empty] at hget
          cases hget
      · intro he
        exact mem_sortedEntries.mpr (hholds.1 e he)
    have heq : sortedEntries t = p.listed := eq_of_keys_lt (pairwise_sortedEntries t) hsorted hmem
    have hvalidators : (persistKeys t).validators = p.validators := by
      rw [← p.map_listed, ← heq]
      rfl
    cases p
    exact congrArg PersistedKeyHistory.mk hvalidators

theorem ordered_of_restoreKeys {p : PersistedKeyHistory} {t : Table NodeId (List KeyEntry)}
    (h : restoreKeys p = .ok t) : Ordered t := by
  have hfold : ∀ (vs : List PersistedValidator) (t₀ : Table NodeId (List KeyEntry)), Ordered t₀ →
      vs.foldlM (fun (t : Table NodeId (List KeyEntry)) v => do
        require (!v.entries.isEmpty) (PersistedKeyError.noEntries v.stableId)
        checkIncreasing v.stableId none v.entries
        return t.insert v.stableId v.entries) t₀ = .ok t → Ordered t := by
    intro vs
    induction vs with
    | nil =>
      intro t₀ ho hf
      rw [← Except.ok.inj hf]
      exact ho
    | cons v vs ih =>
      intro t₀ ho hf
      rw [List.foldlM_cons] at hf
      obtain ⟨t₁, hstep, hf⟩ := bind_eq_ok.mp hf
      obtain ⟨_, hne, hstep⟩ := bind_eq_ok.mp hstep
      obtain ⟨_, hsorted, hstep⟩ := bind_eq_ok.mp hstep
      have hnonempty := require_eq_ok.mp hne
      refine ih t₁ ?_ hf
      rw [← Except.ok.inj hstep]
      exact ho.insert (by simpa using hnonempty) (pairwise_of_checkIncreasing hsorted).2
  exact hfold p.validators ∅ ordered_empty h

theorem Ordered.register {t : Table NodeId (List KeyEntry)} (h : Ordered t)
    (stableId : NodeId) (vEff key : ℕ) : Ordered (Boule.register t stableId vEff key) := by
  unfold Boule.register
  split_ifs
  · exact h
  · exact h.insert (List.cons_ne_nil _ _) (List.pairwise_singleton _ _)

theorem Ordered.appendEntry {t t' : Table NodeId (List KeyEntry)} (h : Ordered t)
    {stableId : NodeId} {vEff key : ℕ} (ha : Boule.appendEntry t stableId vEff key = .ok t') :
    Ordered t' := by
  obtain ⟨entries, last, he, hl, hlt, rfl⟩ := appendEntry_eq_ok.mp ha
  exact h.insert (by simp) (pairwise_give (h stableId entries he).2 hl hlt)

/-! ### Parameters -/

namespace ConsensusParamHistory

/-- What is read is written back as it was. -/
theorem toPersisted_of_fromPersisted {p : PersistedConsensusParamHistory}
    {h : ConsensusParamHistory} (hp : fromPersisted p = .ok h) : h.toPersisted = p := by
  have hfold : ∀ (bs : List PersistedParamBoundary) (h₀ : ConsensusParamHistory),
      bs.foldlM (fun h b => h.insertBoundary b.vEff b.params) h₀ = .ok h →
        h.genesis = h₀.genesis ∧
          h.toPersisted.boundaries = h₀.toPersisted.boundaries ++ bs := by
    intro bs
    induction bs with
    | nil =>
      intro h₀ hf
      rw [← Except.ok.inj hf]
      exact ⟨rfl, (List.append_nil _).symm⟩
    | cons b bs ih =>
      intro h₀ hf
      rw [List.foldlM_cons] at hf
      obtain ⟨h₁, hinsert, hf⟩ := bind_eq_ok.mp hf
      obtain ⟨hgenesis, hboundaries⟩ := ih h₁ hf
      unfold insertBoundary at hinsert
      split_ifs at hinsert
      rw [← Except.ok.inj hinsert] at hgenesis hboundaries
      refine ⟨hgenesis, hboundaries.trans ?_⟩
      simp [toPersisted]
  obtain ⟨hgenesis, hboundaries⟩ := hfold p.boundaries (.new p.genesis) hp
  obtain ⟨genesis, boundaries⟩ := p
  have hsame : h.toPersisted.genesis = genesis := hgenesis
  rw [← hsame]
  exact congrArg (PersistedConsensusParamHistory.mk _) hboundaries

end ConsensusParamHistory

/-! ### Runs of calls -/

namespace BlsKeyHistory

inductive Call where
  | register (stableId : NodeId) (vEff : ℕ) (blsPubkey : BlsPublicKey)
  | applyRotation (stableId : NodeId) (vEff : ℕ) (newBlsPubkey : BlsPublicKey)
  | cancelPendingRotation (stableId : NodeId) (cancellingVEff commitView : ℕ)

/-- The history after a call; one that fails changes nothing. -/
def call (h : BlsKeyHistory) : Call → BlsKeyHistory
  | .register stableId vEff blsPubkey => ⟨register h.byStableId stableId vEff blsPubkey⟩
  | .applyRotation stableId vEff newBlsPubkey =>
    keepOnError (h.applyRotation stableId vEff newBlsPubkey) h
  | .cancelPendingRotation stableId cancellingVEff commitView =>
    keepOnError (h.cancelPendingRotation stableId cancellingVEff commitView) h

/-- No cancel takes back the only entry of a validator. -/
def Spares (h : BlsKeyHistory) : Call → Prop
  | .cancelPendingRotation stableId cancellingVEff commitView =>
    ∀ e, h.byStableId.get? stableId = some [e] →
      ¬ (e.vEff = cancellingVEff ∧ commitView < cancellingVEff)
  | _ => True

/-- What a history starts from. -/
def Started (h : BlsKeyHistory) : Prop :=
  (∃ genesis, h = withGenesis genesis) ∨ ∃ p, fromPersisted p = .ok h

theorem Started.ordered {h : BlsKeyHistory} (hs : h.Started) : Ordered h.byStableId := by
  rcases hs with ⟨genesis, rfl⟩ | ⟨p, hp⟩
  · exact ordered_blsGenesis genesis
  · obtain ⟨t, ht, rfl⟩ := map_eq_ok.mp hp
    exact ordered_of_restoreKeys ht

theorem ordered_call {h : BlsKeyHistory} (ho : Ordered h.byStableId) {c : Call}
    (hspares : h.Spares c) : Ordered (h.call c).byStableId := by
  cases c with
  | register stableId vEff blsPubkey => exact ho.register stableId vEff blsPubkey
  | applyRotation stableId vEff newBlsPubkey =>
    simp only [call]
    cases ha : h.applyRotation stableId vEff newBlsPubkey with
    | error e => exact ho
    | ok h' =>
      obtain ⟨t, ht, rfl⟩ := map_eq_ok.mp ha
      exact ho.appendEntry ht
  | cancelPendingRotation stableId cancellingVEff commitView =>
    simp only [call]
    cases hc : h.cancelPendingRotation stableId cancellingVEff commitView with
    | error e => exact ho
    | ok h' =>
      obtain ⟨entries, last, he, hl, hv, hlt, rfl⟩ := cancelPendingRotation_eq_ok.mp hc
      obtain ⟨init, rfl⟩ := List.getLast?_eq_some_iff.mp hl
      have hinit : init ≠ [] := by
        rintro rfl
        exact hspares last he ⟨hv, hlt⟩
      refine ho.insert ?_ ((ho stableId _ he).2.sublist (List.dropLast_sublist _))
      rw [List.dropLast_concat]
      exact hinit

/-- A validator that has lost its only entry gets no other. -/
theorem emptied_call {h : BlsKeyHistory} {id : NodeId} (he : h.byStableId.get? id = some [])
    (c : Call) : (h.call c).byStableId.get? id = some [] := by
  cases c with
  | register stableId vEff blsPubkey =>
    simp only [call, Boule.register]
    split_ifs with hknown
    · exact he
    · have hne : id ≠ stableId := by
        rintro rfl
        rw [Table.containsKey, he] at hknown
        exact hknown rfl
      rw [Table.get?_insert_of_ne _ hne]
      exact he
  | applyRotation stableId vEff newBlsPubkey =>
    simp only [call]
    cases ha : h.applyRotation stableId vEff newBlsPubkey with
    | error e => exact he
    | ok h' =>
      obtain ⟨t, ht, rfl⟩ := map_eq_ok.mp ha
      obtain ⟨entries, last, hentries, hlast, -, rfl⟩ := appendEntry_eq_ok.mp ht
      have hne : id ≠ stableId := by
        rintro rfl
        rw [← Option.some.inj (he.symm.trans hentries)] at hlast
        cases hlast
      exact (Table.get?_insert_of_ne h.byStableId hne _).trans he
  | cancelPendingRotation stableId cancellingVEff commitView =>
    simp only [call]
    cases hc : h.cancelPendingRotation stableId cancellingVEff commitView with
    | error e => exact he
    | ok h' =>
      obtain ⟨entries, last, hentries, hlast, -, -, rfl⟩ := cancelPendingRotation_eq_ok.mp hc
      have hne : id ≠ stableId := by
        rintro rfl
        rw [← Option.some.inj (he.symm.trans hentries)] at hlast
        cases hlast
      exact (Table.get?_insert_of_ne h.byStableId hne _).trans he

theorem emptied_of_not_spares {h : BlsKeyHistory} {c : Call} (hc : ¬ h.Spares c) :
    ∃ id, (h.call c).byStableId.get? id = some [] := by
  cases c with
  | register stableId vEff blsPubkey => exact absurd trivial hc
  | applyRotation stableId vEff newBlsPubkey => exact absurd trivial hc
  | cancelPendingRotation stableId cancellingVEff commitView =>
    simp only [Spares, not_forall, not_not] at hc
    obtain ⟨e, he, hview⟩ := hc
    have hcancel : h.cancelPendingRotation stableId cancellingVEff commitView =
        .ok ⟨h.byStableId.insert stableId []⟩ :=
      cancelPendingRotation_eq_ok.mpr ⟨[e], e, he, rfl, hview.1, hview.2, rfl⟩
    refine ⟨stableId, ?_⟩
    rw [call, hcancel]
    exact Table.get?_insert_self ..

/-- A run reloads exactly when none of its cancels takes back the only entry of a validator. -/
theorem reloads_iff_spares {h : BlsKeyHistory} (hs : h.Started) (calls : List Call) :
    (∃ h', fromPersisted (run call h calls).toPersisted = .ok h' ∧ h'.Alike (run call h calls)) ↔
      Along call Spares h calls := by
  constructor
  · rintro ⟨h', hreload, -⟩
    obtain ⟨t, ht, -⟩ := map_eq_ok.mp hreload
    have hfull := ne_nil_of_restoreKeys ht
    clear hreload hs
    induction calls generalizing h with
    | nil => trivial
    | cons c calls ih =>
      refine ⟨?_, ih ht hfull⟩
      by_contra hc
      obtain ⟨id, hid⟩ := emptied_of_not_spares hc
      refine hfull id ?_
      exact run_invariant (I := fun h : BlsKeyHistory => h.byStableId.get? id = some [])
        (fun h c he => emptied_call he c) hid calls
  · intro hspares
    exact fromPersisted_toPersisted
      (hspares.invariant (I := fun h : BlsKeyHistory => Ordered h.byStableId)
        (fun h c hc ho => ordered_call ho hc) hs.ordered)

end BlsKeyHistory

namespace OperatorKeyHistory

inductive Call where
  | register (validator : ValidatorId) (vEff : ℕ) (operatorPubkey : NodeId)
  | applyRotation (stableId : ValidatorId) (vEff : ℕ) (newOperatorPubkey : NodeId)

/-- The history after a call; one that fails changes nothing. -/
def call (h : OperatorKeyHistory) : Call → OperatorKeyHistory
  | .register validator vEff operatorPubkey =>
    ⟨register h.byStableId validator vEff operatorPubkey⟩
  | .applyRotation stableId vEff newOperatorPubkey =>
    keepOnError (h.applyRotation stableId vEff newOperatorPubkey) h

/-- What a history starts from. -/
def Started (h : OperatorKeyHistory) : Prop :=
  (∃ genesis, h = withGenesis genesis) ∨ ∃ p, fromPersisted p = .ok h

theorem Started.ordered {h : OperatorKeyHistory} (hs : h.Started) : Ordered h.byStableId := by
  rcases hs with ⟨genesis, rfl⟩ | ⟨p, hp⟩
  · exact ordered_operatorGenesis genesis
  · obtain ⟨t, ht, rfl⟩ := map_eq_ok.mp hp
    exact ordered_of_restoreKeys ht

theorem ordered_call {h : OperatorKeyHistory} (ho : Ordered h.byStableId) (c : Call) :
    Ordered (h.call c).byStableId := by
  cases c with
  | register validator vEff operatorPubkey => exact ho.register validator vEff operatorPubkey
  | applyRotation stableId vEff newOperatorPubkey =>
    simp only [call]
    cases ha : h.applyRotation stableId vEff newOperatorPubkey with
    | error e => exact ho
    | ok h' =>
      obtain ⟨t, ht, rfl⟩ := map_eq_ok.mp ha
      exact ho.appendEntry ht

/-- Every run reloads. -/
theorem reloads {h : OperatorKeyHistory} (hs : h.Started) (calls : List Call) :
    ∃ h', fromPersisted (run call h calls).toPersisted = .ok h' ∧ h'.Alike (run call h calls) :=
  fromPersisted_toPersisted
    (run_invariant (I := fun h : OperatorKeyHistory => Ordered h.byStableId)
      (fun _ c ho => ordered_call ho c) hs.ordered calls)

end OperatorKeyHistory

/-- What is written is read back, but for a BLS history that a cancel has left without an entry
of a validator. What is read is written back as it was exactly when it was canonical, and
parameters always. -/
theorem persisted_round_trips :
    (∀ h : ValidatorSetHistory, ValidatorSetHistory.fromPersisted h.toPersisted = .ok h) ∧
    (∀ h : ConsensusParamHistory, ConsensusParamHistory.fromPersisted h.toPersisted = .ok h) ∧
    (∀ (h : BlsKeyHistory) (calls : List BlsKeyHistory.Call), h.Started →
      Along BlsKeyHistory.call BlsKeyHistory.Spares h calls →
      ∃ h', BlsKeyHistory.fromPersisted (run BlsKeyHistory.call h calls).toPersisted = .ok h' ∧
        h'.Alike (run BlsKeyHistory.call h calls)) ∧
    (∀ (h : OperatorKeyHistory) (calls : List OperatorKeyHistory.Call), h.Started →
      ∃ h', OperatorKeyHistory.fromPersisted (run OperatorKeyHistory.call h calls).toPersisted =
          .ok h' ∧ h'.Alike (run OperatorKeyHistory.call h calls)) ∧
    (∀ p h, ValidatorSetHistory.fromPersisted p = .ok h →
      (h.toPersisted = p ↔ p.Canonical)) ∧
    (∀ p h, BlsKeyHistory.fromPersisted p = .ok h → (h.toPersisted = p ↔ p.Canonical)) ∧
    (∀ p h, OperatorKeyHistory.fromPersisted p = .ok h →
      (h.toPersisted = p ↔ p.Canonical)) ∧
    (∀ p h, ConsensusParamHistory.fromPersisted p = .ok h → h.toPersisted = p) := by
  refine ⟨ValidatorSetHistory.fromPersisted_toPersisted,
    ConsensusParamHistory.fromPersisted_toPersisted,
    fun h calls hs hspares => (BlsKeyHistory.reloads_iff_spares hs calls).mpr hspares,
    fun h calls hs => OperatorKeyHistory.reloads hs calls,
    fun p h hp => ValidatorSetHistory.toPersisted_eq_iff hp, ?_, ?_,
    fun p h hp => ConsensusParamHistory.toPersisted_of_fromPersisted hp⟩
  · intro p h hp
    obtain ⟨t, ht, rfl⟩ := map_eq_ok.mp hp
    exact persistKeys_eq_iff ht
  · intro p h hp
    obtain ⟨t, ht, rfl⟩ := map_eq_ok.mp hp
    exact persistKeys_eq_iff ht

namespace Sample

/-- A key is rotated and the rotation is taken back. -/
def rotatedAndBack : List BlsKeyHistory.Call :=
  [.register 2 3 7, .applyRotation 2 6 8, .cancelPendingRotation 2 6 4]

theorem rotated_round_trips :
    (∃ h', BlsKeyHistory.fromPersisted
        (run BlsKeyHistory.call (.withGenesis [(1, 5)]) rotatedAndBack).toPersisted = .ok h' ∧
      h'.Alike (run BlsKeyHistory.call (.withGenesis [(1, 5)]) rotatedAndBack)) ∧
    ∃ h, ValidatorSetHistory.fromPersisted ⟨[⟨0, [1, 2], [4, 3]⟩]⟩ = .ok h ∧
      h.toPersisted = ⟨[⟨0, [1, 2], [4, 3]⟩]⟩ := by
  obtain ⟨-, -, hbls, -, hset, -, -, -⟩ := persisted_round_trips
  constructor
  · refine hbls _ _ (.inl ⟨_, rfl⟩) ⟨trivial, trivial, ?_, trivial⟩
    intro e he
    cases he
  · refine ⟨_, rfl, (hset _ _ rfl).mpr ?_⟩
    intro b hb
    rw [List.mem_singleton.mp hb]
    decide

/-- Members out of order, a member twice, validators out of order and a validator twice are
taken, and a history without an entry of a validator is written. -/
theorem persisted_rewritten :
    (∃ h, ValidatorSetHistory.fromPersisted ⟨[⟨0, [2, 1], [3, 4]⟩]⟩ = .ok h ∧
      h.toPersisted = ⟨[⟨0, [1, 2], [4, 3]⟩]⟩) ∧
    (∃ h, ValidatorSetHistory.fromPersisted ⟨[⟨0, [1, 1], [3, 4]⟩]⟩ = .ok h ∧
      h.toPersisted = ⟨[⟨0, [1], [3]⟩]⟩) ∧
    (∃ h, BlsKeyHistory.fromPersisted ⟨[⟨2, [⟨0, 5⟩]⟩, ⟨1, [⟨0, 6⟩]⟩]⟩ = .ok h ∧
      h.toPersisted = ⟨[⟨1, [⟨0, 6⟩]⟩, ⟨2, [⟨0, 5⟩]⟩]⟩) ∧
    (∃ h, OperatorKeyHistory.fromPersisted ⟨[⟨1, [⟨0, 5⟩]⟩, ⟨1, [⟨3, 6⟩]⟩]⟩ = .ok h ∧
      h.toPersisted = ⟨[⟨1, [⟨3, 6⟩]⟩]⟩) ∧
    ∀ h', BlsKeyHistory.fromPersisted (run BlsKeyHistory.call (.withGenesis [])
      [.register 9 5 7, .cancelPendingRotation 9 5 3]).toPersisted ≠ .ok h' := by
  refine ⟨⟨_, rfl, by decide⟩, ⟨_, rfl, by decide⟩, ⟨_, rfl, by decide⟩, ⟨_, rfl, by decide⟩, ?_⟩
  intro h' he
  cases he

end Sample

end Boule
