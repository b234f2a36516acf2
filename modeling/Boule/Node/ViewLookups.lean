import Boule.ConsensusParams
import Boule.Node.OperatorKeys
import Boule.Pacemaker.Leader
import Boule.Node.RoundTrips

/-! The lookups by view: each finds the entry with the greatest view that is not after the one
asked for, and an entry that is inserted changes no answer before its own view. -/
namespace Boule
open Search

/-! ### Tables of keys -/

/-- The entries of an id, none if it has no list. -/
def entriesOf (t : Table NodeId (List KeyEntry)) (id : NodeId) : List (ℕ × ℕ) :=
  ((t.get? id).getD []).map fun e => (e.vEff, e.key)

/-- `key_at` of the three histories. -/
def lookupKey (t : Table NodeId (List KeyEntry)) (id : NodeId) (view : ℕ) : Option ℕ :=
  (t.get? id).bind (keyAt · view)

theorem keyAt_eq_lastLe {entries : List KeyEntry}
    (hs : entries.Pairwise fun e e' => e.vEff < e'.vEff) (view : ℕ) :
    keyAt entries view = lastLe (entries.map fun e => (e.vEff, e.key)) view := by
  unfold keyAt lastLe
  rw [takeWhile_eq_filter_of_sorted hs, List.filter_map, List.getLast?_map, Option.map_map]
  rfl

section
variable {t t' : Table NodeId (List KeyEntry)}

theorem Ascending.latestAt (h : Ascending t) (id : NodeId) (view : ℕ) :
    LatestAt (entriesOf t id) view (lookupKey t id view) := by
  unfold entriesOf lookupKey
  cases hget : t.get? id with
  | none =>
    refine ⟨fun a ha => absurd ha (by simp), iff_of_true rfl ?_⟩
    exact fun x hx => absurd hx List.not_mem_nil
  | some entries =>
    have hs := h id entries hget
    have hkeys : ((entries.map fun e => (e.vEff, e.key)).map Prod.fst).Pairwise (· < ·) := by
      rw [List.map_map]
      exact List.pairwise_map.mpr hs
    have hlatest := latestAt_lastLe hkeys view
    rw [← keyAt_eq_lastLe hs] at hlatest
    exact hlatest

theorem ascending_empty : Ascending (∅ : Table NodeId (List KeyEntry)) := ordered_empty.ascending

theorem Ascending.insert (h : Ascending t) {id : NodeId} {entries : List KeyEntry}
    (hs : entries.Pairwise fun e e' => e.vEff < e'.vEff) : Ascending (t.insert id entries) := by
  intro id' entries' he
  rw [Table.get?_insert] at he
  split_ifs at he
  · rwa [← Option.some.inj he]
  · exact h id' entries' he

theorem Ascending.register (h : Ascending t) (id : NodeId) (vEff key : ℕ) :
    Ascending (Boule.register t id vEff key) := by
  unfold Boule.register
  split_ifs
  · exact h
  · exact h.insert (List.pairwise_singleton _ _)

theorem Ascending.cancel (h : Ascending t) {id : NodeId} {entries : List KeyEntry}
    (he : t.get? id = some entries) : Ascending (t.insert id entries.dropLast) :=
  h.insert ((h id entries he).sublist (List.dropLast_sublist entries))

/-- An entry at `vEff`: the first one of an id without a list, or one after the last. -/
inductive Inserts (vEff : ℕ) (t : Table NodeId (List KeyEntry)) :
    Table NodeId (List KeyEntry) → Prop
  | first {id : NodeId} (key : ℕ) (new : t.get? id = none) :
    Inserts vEff t (t.insert id [⟨vEff, key⟩])
  | later {id : NodeId} {entries : List KeyEntry} {last : KeyEntry} (key : ℕ)
    (present : t.get? id = some entries) (isLast : entries.getLast? = some last)
    (after : last.vEff < vEff) : Inserts vEff t (t.insert id (entries ++ [⟨vEff, key⟩]))

theorem Inserts.ascending {vEff : ℕ} (hi : Inserts vEff t t') (h : Ascending t) :
    Ascending t' := by
  cases hi with
  | first key new => exact h.insert (List.pairwise_singleton _ _)
  | later key present isLast after =>
    exact h.insert (pairwise_give (h _ _ present) isLast after)

/-- What is inserted changes nothing before its view. -/
theorem Inserts.lookupKey_eq {vEff : ℕ} (hi : Inserts vEff t t') (h : Ascending t) (id : NodeId)
    {view : ℕ} (hview : view < vEff) : lookupKey t' id view = lookupKey t id view := by
  have hbefore : ¬ vEff ≤ view := Nat.not_le.mpr hview
  unfold lookupKey
  cases hi with
  | @first id' key new =>
    rw [Table.get?_insert]
    split_ifs with hid
    · rw [hid, new]
      show keyAt [⟨vEff, key⟩] view = none
      unfold keyAt
      rw [List.takeWhile_cons_of_neg (by simpa using hbefore)]
      rfl
    · rfl
  | @later id' entries last key present isLast after =>
    rw [Table.get?_insert]
    split_ifs with hid
    · rw [hid, present, Option.bind_some, Option.bind_some,
        keyAt_append (h _ _ present) isLast after, if_neg hbefore]
    · rfl

/-- A list that is replaced by one entry keeps the answers before it exactly when none of its own
entries is before it. -/
theorem lookupKey_replace_iff (h : Ascending t) {id : NodeId} {vEff key : ℕ} :
    (∀ id' view, view < vEff →
        lookupKey (t.insert id [⟨vEff, key⟩]) id' view = lookupKey t id' view) ↔
      ∀ entries, t.get? id = some entries → ∀ e ∈ entries, vEff ≤ e.vEff := by
  have hnew : ∀ view, view < vEff → lookupKey (t.insert id [⟨vEff, key⟩]) id view = none := by
    intro view hview
    have hbefore : ¬ vEff ≤ view := Nat.not_le.mpr hview
    unfold lookupKey
    rw [Table.get?_insert_self]
    show keyAt [⟨vEff, key⟩] view = none
    unfold keyAt
    rw [List.takeWhile_cons_of_neg (by simpa using hbefore)]
    rfl
  constructor
  · intro hsame entries he e hmem
    by_contra hlt
    have hview : e.vEff < vEff := Nat.lt_of_not_le hlt
    have hnone := (hsame id e.vEff hview).symm.trans (hnew e.vEff hview)
    have hlater := (h.latestAt id e.vEff).missing.mp hnone (e.vEff, e.key)
    refine Nat.lt_irrefl _ (hlater ?_)
    unfold entriesOf
    rw [he]
    exact List.mem_map.mpr ⟨e, hmem, rfl⟩
  · intro hnone id' view hview
    by_cases hid : id' = id
    · rw [hid, hnew view hview]
      refine ((h.latestAt id view).missing.mpr fun x hx => ?_).symm
      unfold entriesOf at hx
      cases hget : t.get? id with
      | none =>
        rw [hget] at hx
        exact absurd hx List.not_mem_nil
      | some entries =>
        rw [hget] at hx
        obtain ⟨e, hmem, rfl⟩ := List.mem_map.mp hx
        exact hview.trans_le (hnone entries hget e hmem)
    · unfold lookupKey
      rw [Table.get?_insert_of_ne _ hid]

end

/-! ### Sets and parameters -/

theorem ValidatorSetHistory.latestAt_setAt (h : ValidatorSetHistory) (view : ℕ) :
    LatestAt h.iter view (some (h.setAt view)) := by
  have hs : (h.iter.map Prod.fst).Pairwise (· < ·) := by
    rw [iter, List.map_map]
    exact h.sorted
  rw [h.setAt_eq_lastLe]
  exact latestAt_lastLe hs view

theorem regimeStartLoop_mem (view start : ℕ) (bs : List Boundary) :
    regimeStartLoop view start bs ∈ start :: bs.map Boundary.vEff := by
  induction bs generalizing start with
  | nil => exact List.mem_singleton_self start
  | cons b bs ih =>
    rw [regimeStartLoop]
    split_ifs
    · exact List.mem_cons_of_mem _ (ih b.vEff)
    · exact List.mem_cons_self ..

/-- The boundaries as the views in which they come into force. -/
def ValidatorSetHistory.starts (h : ValidatorSetHistory) : List (ℕ × ℕ) :=
  h.iter.map fun b => (b.1, b.1)

theorem ValidatorSetHistory.mem_starts {h : ValidatorSetHistory} {e a : ℕ} :
    (e, a) ∈ h.starts ↔ e = a ∧ a ∈ h.boundaries.map Boundary.vEff := by
  unfold starts iter
  rw [List.map_map, List.mem_map, List.mem_map]
  constructor
  · rintro ⟨b, hb, he⟩
    obtain ⟨hbe, hba⟩ := Prod.mk.inj he
    exact ⟨hbe.symm.trans hba, b, hb, hba⟩
  · rintro ⟨he, b, hb, hba⟩
    rw [he, ← hba]
    exact ⟨b, hb, rfl⟩

theorem ValidatorSetHistory.zero_mem (h : ValidatorSetHistory) :
    0 ∈ h.boundaries.map Boundary.vEff := by
  obtain ⟨b, hb, hzero⟩ := Option.map_eq_some_iff.mp h.head_zero
  rw [← hzero]
  exact List.mem_map_of_mem (List.mem_of_mem_head? hb)

theorem latestAt_regimeStartFor (h : ValidatorSetHistory) (view : ℕ) :
    LatestAt h.starts view (some (regimeStartFor h view)) := by
  obtain ⟨-, hle, hmax⟩ :=
    regimeStartLoop_spec (Nat.zero_le view) h.sorted fun _ _ => Nat.zero_le _
  have hmem : regimeStartFor h view ∈ h.boundaries.map Boundary.vEff := by
    obtain hzero | hin := List.mem_cons.mp (regimeStartLoop_mem view 0 h.boundaries)
    · rw [regimeStartFor, hzero]
      exact h.zero_mem
    · exact hin
  constructor
  · intro a ha
    rw [← Option.some.inj ha]
    refine ⟨_, ValidatorSetHistory.mem_starts.mpr ⟨rfl, hmem⟩, hle, fun x hx hxv => ?_⟩
    obtain ⟨hxa, hin⟩ := ValidatorSetHistory.mem_starts.mp (show (x.1, x.2) ∈ h.starts from hx)
    obtain ⟨b, hb, hbx⟩ := List.mem_map.mp hin
    have hbound := hmax b hb (by omega)
    show x.1 ≤ regimeStartLoop view 0 h.boundaries
    omega
  · refine iff_of_false (by simp) fun hall => ?_
    have hzero := hall (0, 0) (ValidatorSetHistory.mem_starts.mpr ⟨rfl, h.zero_mem⟩)
    exact Nat.not_lt_zero view hzero

theorem regimeStartFor_eq_lastLe (h : ValidatorSetHistory) (view : ℕ) :
    some (regimeStartFor h view) = lastLe h.starts view := by
  have hs : (h.starts.map Prod.fst).Pairwise (· < ·) := by
    rw [ValidatorSetHistory.starts, ValidatorSetHistory.iter, List.map_map, List.map_map]
    exact h.sorted
  refine LatestAt.unique (fun e a a' ha ha' => ?_) (latestAt_regimeStartFor h view)
    (latestAt_lastLe hs view)
  have hstart := (ValidatorSetHistory.mem_starts.mp ha).1
  have hstart' := (ValidatorSetHistory.mem_starts.mp ha').1
  exact hstart.symm.trans hstart'

theorem regimeStartFor_insertBoundary_of_lt {h h' : ValidatorSetHistory} {vEff view : ℕ}
    {set : ValidatorSet} (hi : h.insertBoundary vEff set = .ok h') (hview : view < vEff) :
    regimeStartFor h' view = regimeStartFor h view := by
  apply Option.some.inj
  rw [regimeStartFor_eq_lastLe, regimeStartFor_eq_lastLe, ValidatorSetHistory.starts,
    (ValidatorSetHistory.insertBoundary_eq_ok hi).2, List.map_append]
  exact lastLe_append_of_lt hview vEff

namespace ConsensusParamHistory

/-- The scan from the end finds the last boundary that is not after the view. -/
theorem paramsAt_eq_lastLe (h : ConsensusParamHistory) (view : ℕ) :
    h.paramsAt view = (lastLe h.boundaries view).getD h.genesis := by
  unfold paramsAt lastLe
  rw [← List.head?_filter, List.filter_reverse, List.head?_reverse]

theorem latestAt_paramsAt (h : ConsensusParamHistory) (view : ℕ) :
    ∃ r, LatestAt h.boundaries view r ∧ h.paramsAt view = r.getD h.genesis :=
  ⟨_, latestAt_lastLe (List.pairwise_cons.mp h.sorted).2 view, h.paramsAt_eq_lastLe view⟩

theorem paramsAt_insertBoundary_of_lt {h h' : ConsensusParamHistory} {vEff view : ℕ}
    {params : ConsensusParams} (hi : h.insertBoundary vEff params = .ok h')
    (hview : view < vEff) : h'.paramsAt view = h.paramsAt view := by
  unfold insertBoundary at hi
  split_ifs at hi
  rw [← Except.ok.inj hi, paramsAt_eq_lastLe, paramsAt_eq_lastLe]
  exact congrArg (Option.getD · h.genesis) (lastLe_append_of_lt hview params)

end ConsensusParamHistory

/-! ### Histories of keys -/

namespace ValidatorKeyHistory

/-- What the public operations build. -/
inductive Built : ValidatorKeyHistory → Prop
  | new (genesis : List ValidatorId) : Built (.new genesis)
  | fromSetHistory (history : ValidatorSetHistory) : Built (.fromSetHistory history)
  | restored {persisted : PersistedKeyHistory} {h : ValidatorKeyHistory}
    (restored : fromPersisted persisted = .ok h) : Built h
  | called {h h' : ValidatorKeyHistory} (built : Built h) (c : Call)
    (carriedOut : h.outcome c = .ok h') : Built h'

/-- The view of the entry that a call adds. -/
def Call.insertsAt : Call → Option ℕ
  | .addValidator _ vEff => some vEff
  | .applyRotation rotation _ => some rotation.vEff
  | .cancelPendingRotation _ _ _ => none

/-- A validator that is added has no entry before. -/
def SparesPast (h : ValidatorKeyHistory) : Call → Prop
  | .addValidator pubkey vEff => ∀ entries, h.byStableId.get? pubkey = some entries →
      ∀ e ∈ entries, vEff ≤ e.vEff
  | _ => True

theorem ascending_foldl_register (seats : List (ℕ × NodeId)) {t : Table NodeId (List KeyEntry)}
    (h : Ascending t) : Ascending (seats.foldl (fun t s => register t s.2 s.1 s.2) t) := by
  induction seats generalizing t with
  | nil => exact h
  | cons seat seats ih => exact ih (h.register seat.2 seat.1 seat.2)

/-- Keys are claimed of entries that pass the check of a history without owners. -/
theorem checkIncreasing_of_claimKeys {stableId : NodeId} {owners owners' : Table NodeId NodeId}
    {entries : List KeyEntry} {prev : Option ℕ}
    (h : claimKeys stableId owners prev entries = .ok owners') :
    checkIncreasing stableId prev entries = .ok () := by
  induction entries generalizing prev owners with
  | nil => rfl
  | cons e entries ih =>
    obtain ⟨_, hprev, h⟩ := bind_eq_ok.mp h
    obtain ⟨_, -, hrest⟩ := bind_eq_ok.mp h
    exact bind_eq_ok.mpr ⟨(), hprev, ih hrest⟩

theorem ascending_of_fromPersisted {persisted : PersistedKeyHistory} {h : ValidatorKeyHistory}
    (hr : fromPersisted persisted = .ok h) : Ascending h.byStableId := by
  refine foldlM_invariant (I := fun h : ValidatorKeyHistory => Ascending h.byStableId)
    (fun h v h' hstep ht => ?_) hr ascending_empty
  obtain ⟨first, -, hstep⟩ := bind_eq_ok.mp hstep
  obtain ⟨_, -, hstep⟩ := bind_eq_ok.mp hstep
  obtain ⟨owners, hclaimed, hstep⟩ := bind_eq_ok.mp hstep
  rw [← Except.ok.inj hstep]
  exact Ascending.insert ht (pairwise_of_checkIncreasing (checkIncreasing_of_claimKeys hclaimed)).2

theorem Built.ascending {h : ValidatorKeyHistory} (hb : h.Built) : Ascending h.byStableId := by
  induction hb with
  | new genesis => exact (inOrder_new genesis).ordered.ascending
  | fromSetHistory history => exact ascending_foldl_register _ ascending_empty
  | restored hr => exact ascending_of_fromPersisted hr
  | @called h h' built c carriedOut ih =>
    cases c with
    | addValidator pubkey vEff =>
      obtain ⟨_, -, hadd⟩ := bind_eq_ok.mp carriedOut
      rw [← Except.ok.inj hadd]
      exact ih.insert (List.pairwise_singleton _ _)
    | applyRotation rotation commitView =>
      obtain ⟨id, entries, last, -, -, he, hl, hlt, rfl⟩ := applyRotation_eq_ok carriedOut
      exact (Inserts.later rotation.newPubkey he hl hlt).ascending ih
    | cancelPendingRotation validator cancellingVEff commitView =>
      obtain ⟨id, entries, last, -, he, -, -, -, rfl⟩ :=
        cancelPendingRotation_eq_ok.mp carriedOut
      exact ih.cancel he

theorem Built.latestAt {h : ValidatorKeyHistory} (hb : h.Built) (id : ValidatorId) (view : ℕ) :
    LatestAt (entriesOf h.byStableId id) view (h.keyAt id view) := hb.ascending.latestAt id view

/-- An entry is added without a change before it exactly when no entries are replaced. -/
theorem Built.keyAt_eq_iff {h h' : ValidatorKeyHistory} (hb : h.Built) {c : Call} {vEff : ℕ}
    (hc : h.outcome c = .ok h') (hinserts : c.insertsAt = some vEff) :
    (∀ id view, view < vEff → h'.keyAt id view = h.keyAt id view) ↔ h.SparesPast c := by
  have ha := hb.ascending
  cases c with
  | addValidator pubkey vEff' =>
    obtain ⟨_, -, hadd⟩ := bind_eq_ok.mp hc
    have hv : vEff' = vEff := Option.some.inj hinserts
    rw [← Except.ok.inj hadd, hv]
    exact lookupKey_replace_iff ha
  | applyRotation rotation commitView =>
    obtain ⟨id, entries, last, -, -, he, hl, hlt, rfl⟩ := applyRotation_eq_ok hc
    have hv : rotation.vEff = vEff := Option.some.inj hinserts
    rw [hv] at hlt
    refine iff_of_true (fun id' view hview => ?_) trivial
    have hsame := (Inserts.later rotation.newPubkey he hl hlt).lookupKey_eq ha id' hview
    rw [hv]
    exact hsame
  | cancelPendingRotation validator cancellingVEff commitView => cases hinserts

end ValidatorKeyHistory

namespace BlsKeyHistory

/-- `register`; `none` for an id that is registered already. -/
def register (h : BlsKeyHistory) (stableId : NodeId) (vEff : ℕ) (key : BlsPublicKey) :
    Option BlsKeyHistory :=
  if h.byStableId.containsKey stableId then none
  else some ⟨h.byStableId.insert stableId [⟨vEff, key⟩]⟩

def outcome (h : BlsKeyHistory) : Call → Option BlsKeyHistory
  | .register stableId vEff key => h.register stableId vEff key
  | .applyRotation stableId vEff newKey => (h.applyRotation stableId vEff newKey).toOption
  | .cancelPendingRotation stableId cancellingVEff commitView =>
    (h.cancelPendingRotation stableId cancellingVEff commitView).toOption

def Call.insertsAt : Call → Option ℕ
  | .register _ vEff _ => some vEff
  | .applyRotation _ vEff _ => some vEff
  | .cancelPendingRotation _ _ _ => none

/-- What the public operations build. -/
inductive Built : BlsKeyHistory → Prop
  | withGenesis (genesis : List (NodeId × BlsPublicKey)) : Built (.withGenesis genesis)
  | restored {persisted : PersistedKeyHistory} {h : BlsKeyHistory}
    (restored : fromPersisted persisted = .ok h) : Built h
  | called {h h' : BlsKeyHistory} (built : Built h) (c : Call)
    (carriedOut : h.outcome c = some h') : Built h'

theorem inserts_of_outcome {h h' : BlsKeyHistory} {c : Call} {vEff : ℕ}
    (hc : h.outcome c = some h') (hinserts : c.insertsAt = some vEff) :
    Inserts vEff h.byStableId h'.byStableId := by
  cases c with
  | register stableId vEff' key =>
    have hv : vEff' = vEff := Option.some.inj hinserts
    simp only [outcome, register] at hc
    split_ifs at hc with hknown
    rw [← Option.some.inj hc, hv]
    exact .first key (Option.not_isSome_iff_eq_none.mp hknown)
  | applyRotation stableId vEff' newKey =>
    have hv : vEff' = vEff := Option.some.inj hinserts
    obtain ⟨t, ht, rfl⟩ := map_eq_ok.mp (toOption_eq_some.mp hc)
    obtain ⟨entries, last, he, hl, hlt, rfl⟩ := appendEntry_eq_ok.mp ht
    rw [hv] at hlt ⊢
    exact .later newKey he hl hlt
  | cancelPendingRotation stableId cancellingVEff commitView => cases hinserts

theorem Built.ascending {h : BlsKeyHistory} (hb : h.Built) : Ascending h.byStableId := by
  induction hb with
  | withGenesis genesis => exact (ordered_blsGenesis genesis).ascending
  | restored hr =>
    obtain ⟨t, ht, rfl⟩ := map_eq_ok.mp hr
    exact (ordered_of_restoreKeys ht).ascending
  | @called h h' built c carriedOut ih =>
    cases hinserts : c.insertsAt with
    | some vEff => exact (inserts_of_outcome carriedOut hinserts).ascending ih
    | none =>
      cases c with
      | register stableId vEff key => cases hinserts
      | applyRotation stableId vEff newKey => cases hinserts
      | cancelPendingRotation stableId cancellingVEff commitView =>
        obtain ⟨entries, last, he, -, -, -, rfl⟩ :=
          cancelPendingRotation_eq_ok.mp (toOption_eq_some.mp carriedOut)
        exact ih.cancel he

theorem Built.latestAt {h : BlsKeyHistory} (hb : h.Built) (id : NodeId) (view : ℕ) :
    LatestAt (entriesOf h.byStableId id) view (h.keyAt id view) := hb.ascending.latestAt id view

theorem Built.keyAt_eq {h h' : BlsKeyHistory} (hb : h.Built) {c : Call} {vEff : ℕ}
    (hc : h.outcome c = some h') (hinserts : c.insertsAt = some vEff) (id : NodeId) {view : ℕ}
    (hview : view < vEff) : h'.keyAt id view = h.keyAt id view :=
  (inserts_of_outcome hc hinserts).lookupKey_eq hb.ascending id hview

end BlsKeyHistory

namespace OperatorKeyHistory

/-- `register`; `none` for a validator that is registered already. -/
def register (h : OperatorKeyHistory) (validator : ValidatorId) (vEff : ℕ) (key : NodeId) :
    Option OperatorKeyHistory :=
  if h.byStableId.containsKey validator then none
  else some ⟨h.byStableId.insert validator [⟨vEff, key⟩]⟩

def outcome (h : OperatorKeyHistory) : Call → Option OperatorKeyHistory
  | .register validator vEff key => h.register validator vEff key
  | .applyRotation stableId vEff newKey => (h.applyRotation stableId vEff newKey).toOption

def Call.insertsAt : Call → ℕ
  | .register _ vEff _ => vEff
  | .applyRotation _ vEff _ => vEff

/-- What the public operations build. -/
inductive Built : OperatorKeyHistory → Prop
  | withGenesis (genesis : List (ValidatorId × NodeId)) : Built (.withGenesis genesis)
  | restored {persisted : PersistedKeyHistory} {h : OperatorKeyHistory}
    (restored : fromPersisted persisted = .ok h) : Built h
  | called {h h' : OperatorKeyHistory} (built : Built h) (c : Call)
    (carriedOut : h.outcome c = some h') : Built h'

theorem inserts_of_outcome {h h' : OperatorKeyHistory} {c : Call} (hc : h.outcome c = some h') :
    Inserts c.insertsAt h.byStableId h'.byStableId := by
  cases c with
  | register validator vEff key =>
    simp only [outcome, register] at hc
    split_ifs at hc with hknown
    rw [← Option.some.inj hc]
    exact .first key (Option.not_isSome_iff_eq_none.mp hknown)
  | applyRotation stableId vEff newKey =>
    obtain ⟨t, ht, rfl⟩ := map_eq_ok.mp (toOption_eq_some.mp hc)
    obtain ⟨entries, last, he, hl, hlt, rfl⟩ := appendEntry_eq_ok.mp ht
    exact .later newKey he hl hlt

theorem Built.ascending {h : OperatorKeyHistory} (hb : h.Built) : Ascending h.byStableId := by
  induction hb with
  | withGenesis genesis => exact (ordered_operatorGenesis genesis).ascending
  | restored hr =>
    obtain ⟨t, ht, rfl⟩ := map_eq_ok.mp hr
    exact (ordered_of_restoreKeys ht).ascending
  | called built c carriedOut ih => exact (inserts_of_outcome carriedOut).ascending ih

theorem Built.latestAt {h : OperatorKeyHistory} (hb : h.Built) (id : ValidatorId) (view : ℕ) :
    LatestAt (entriesOf h.byStableId id) view (h.keyAt id view) := hb.ascending.latestAt id view

theorem Built.keyAt_eq {h h' : OperatorKeyHistory} (hb : h.Built) {c : Call}
    (hc : h.outcome c = some h') (id : ValidatorId) {view : ℕ} (hview : view < c.insertsAt) :
    h'.keyAt id view = h.keyAt id view :=
  (inserts_of_outcome hc).lookupKey_eq hb.ascending id hview

end OperatorKeyHistory

/-! ### All lookups -/

theorem ValidatorKeyHistory.Built.run {h : ValidatorKeyHistory} (hb : h.Built)
    (calls : List Call) : (Boule.run call h calls).Built := by
  refine run_invariant (I := Built) (fun h c hb => ?_) hb calls
  unfold call
  cases hc : h.outcome c with
  | error e => exact hb
  | ok h' => exact .called hb c hc

/-- Every lookup by view answers with the entry that has the greatest view not after the one asked
for, in every history that the public operations build. An entry that is inserted changes no answer
before it, except that a validator that is added loses the entries that it had. -/
theorem lookups_agree_iff (sets : ValidatorSetHistory) (params : ConsensusParamHistory)
    (keys : ValidatorKeyHistory) (blsKeys : BlsKeyHistory) (operatorKeys : OperatorKeyHistory) :
    ((∀ view, LatestAt sets.iter view (some (sets.setAt view)) ∧
          LatestAt sets.starts view (some (regimeStartFor sets view))) ∧
        ∀ vEff set h', sets.insertBoundary vEff set = .ok h' → ∀ view < vEff,
          h'.setAt view = sets.setAt view ∧
            regimeStartFor h' view = regimeStartFor sets view) ∧
      ((∀ view, ∃ r, LatestAt params.boundaries view r ∧
          params.paramsAt view = r.getD params.genesis) ∧
        ∀ vEff new h', params.insertBoundary vEff new = .ok h' → ∀ view < vEff,
          h'.paramsAt view = params.paramsAt view) ∧
      (keys.Built →
        (∀ id view, LatestAt (entriesOf keys.byStableId id) view (keys.keyAt id view)) ∧
          ∀ c vEff h', keys.outcome c = .ok h' → c.insertsAt = some vEff →
            ((∀ id view, view < vEff → h'.keyAt id view = keys.keyAt id view) ↔
              keys.SparesPast c)) ∧
      (blsKeys.Built →
        (∀ id view, LatestAt (entriesOf blsKeys.byStableId id) view (blsKeys.keyAt id view)) ∧
          ∀ c vEff h', blsKeys.outcome c = some h' → c.insertsAt = some vEff →
            ∀ id view, view < vEff → h'.keyAt id view = blsKeys.keyAt id view) ∧
      (operatorKeys.Built →
        (∀ id view, LatestAt (entriesOf operatorKeys.byStableId id) view
          (operatorKeys.keyAt id view)) ∧
          ∀ c h', operatorKeys.outcome c = some h' →
            ∀ id view, view < c.insertsAt → h'.keyAt id view = operatorKeys.keyAt id view) := by
  refine ⟨⟨fun view => ⟨sets.latestAt_setAt view, latestAt_regimeStartFor sets view⟩, ?_⟩,
    ⟨fun view => params.latestAt_paramsAt view, ?_⟩, ?_, ?_, ?_⟩
  · intro vEff set h' hi view hview
    exact ⟨ValidatorSetHistory.setAt_insertBoundary_of_lt hi hview,
      regimeStartFor_insertBoundary_of_lt hi hview⟩
  · intro vEff new h' hi view hview
    exact ConsensusParamHistory.paramsAt_insertBoundary_of_lt hi hview
  · intro hb
    exact ⟨hb.latestAt, fun c vEff h' hc hinserts => hb.keyAt_eq_iff hc hinserts⟩
  · intro hb
    exact ⟨hb.latestAt, fun c vEff h' hc hinserts id view hview => hb.keyAt_eq hc hinserts id hview⟩
  · intro hb
    exact ⟨hb.latestAt, fun c h' hc id view hview => hb.keyAt_eq hc id hview⟩

namespace Sample
open ValidatorKeyHistory

/-- A validator has gone to another key and back, and has cancelled the way back. Its first key is
free then, and adding it again at view 100 takes the keys of all earlier views away. -/
theorem added_again_forgets :
    (run call (new [1]) thereAndBack).Built ∧
      (run call (new [1]) thereAndBack).keyAt 1 3 = some 1 ∧
      ∃ h', (run call (new [1]) thereAndBack).outcome (.addValidator 1 100) = .ok h' ∧
        h'.keyAt 1 3 = none := by
  refine ⟨(Built.new [1]).run thereAndBack, by decide, ?_⟩
  exact ⟨(run call (new [1]) thereAndBack).call (.addValidator 1 100), by decide, by decide⟩

end Sample
end Boule
