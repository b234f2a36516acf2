import Boule.Node.Heard
import Boule.Reth.Registry

/-! The keys of the registry contract against the BLS keys that consensus derives from the same
blocks. -/
namespace Boule
open ConsensusNode

structure RecordKey where
  validator : NodeId
  vEff : ℕ
  key : Bytes
  deriving DecidableEq

inductive RecordKeyError where
  | malformed
  | notInG1
  deriving DecidableEq

structure RegistryPayload where
  keys : List RecordKey
  weights : List (NodeId × ℕ)
  settledView : Option ℕ
  deriving DecidableEq

/-- `SETTLED_VIEW_MARGIN`, the least delay of a reconfiguration. -/
def settledViewMargin : ℕ := 4

def conservativeSettledView (committedView : ℕ) : ℕ := committedView - settledViewMargin

section
variable (toG1 : BlsPublicKey → Option Bytes) (R : HistoryPrimitives)

/-- The record of a rotation's new BLS key, if it has one. -/
def recordKey? (payload : ValidatorKeyRotation) : Except RecordKeyError (Option RecordKey) :=
  match payload.newBlsPubkey with
  | none => .ok none
  | some bls =>
    (okOr (toG1 bls) .notInG1).map fun key => some ⟨payload.validator, payload.vEff, key⟩

def recordKeyForRotation (cmd : Bytes) : Except RecordKeyError (Option RecordKey) :=
  if rotationTag.isPrefixOf cmd then do
    recordKey? toG1 (← okOr (decodeTagged rotationTag R.decodeRotation cmd) .malformed).payload
  else if operatorRotationTag.isPrefixOf cmd then do
    recordKey? toG1
      (← okOr (decodeTagged operatorRotationTag R.decodeOperatorRotation cmd) .malformed).payload
  else .ok none

def registryKeysFromCommands (commands : List Bytes) : List RecordKey :=
  commands.filterMap fun cmd => (recordKeyForRotation toG1 R cmd).toOption.join

def registryPayloadForBuild (view : ℕ) (commands : List Bytes) (weights : List (NodeId × ℕ)) :
    RegistryPayload where
  keys := registryKeysFromCommands toG1 R commands
  weights := weights
  settledView :=
    if conservativeSettledView view = 0 then none else some (conservativeSettledView view)

end

namespace Registry

/-- `apply_registry_writes`; a call that reverts leaves the contract as it was. -/
def applyWrites (r : Registry) (payload : RegistryPayload) : Registry :=
  let r := payload.keys.foldl
    (fun r k => keepOnError (r.recordKey systemAddress k.validator k.vEff k.key) r) r
  let r := payload.weights.foldl
    (fun r w => keepOnError (r.recordWeight systemAddress w.1 w.2) r) r
  payload.settledView.elim r fun view => keepOnError (r.recordSettled systemAddress view) r

/-- `genesis_seed_storage`; `none` for a key outside the group or a total that overflows. -/
def genesisSeed (toG1 : BlsPublicKey → Option Bytes)
    (genesis : List (NodeId × BlsPublicKey × ℕ)) : Option Registry :=
  genesis.foldlM (fun r e => do
    let key ← toG1 e.2.1
    let total ← checkedAddU64 r.totalWeight e.2.2
    return { r with
      history := r.history.insert e.1 [⟨0, key⟩]
      weight := r.weight.insert e.1 e.2.2
      totalWeight := total }) ⟨∅, ∅, 0, 0⟩

end Registry

/-! ### What each side adds for a command -/

def RecordKey.entry (k : RecordKey) : RegistryEntry := ⟨k.vEff, k.key⟩

/-- A later entry is appended, another one is not taken. -/
def pushEntry (entries : List RegistryEntry) (k : RecordKey) : List RegistryEntry :=
  if entries.getLast?.all (·.vEff < k.vEff) then entries ++ [k.entry] else entries

/-- The entries of a validator after the records, each tried in turn. -/
def pushAll (entries : List RegistryEntry) (records : List RecordKey) (v : ValidatorId) :
    List RegistryEntry :=
  (records.filter (·.validator = v)).foldl pushEntry entries

theorem pushAll_append (entries : List RegistryEntry) (records records' : List RecordKey)
    (v : ValidatorId) : pushAll entries (records ++ records') v =
      pushAll (pushAll entries records v) records' v := by
  unfold pushAll
  rw [List.filter_append, List.foldl_append]

theorem pushAll_cons (entries : List RegistryEntry) (k : RecordKey) (records : List RecordKey)
    (v : ValidatorId) : pushAll entries (k :: records) v =
      pushAll (if k.validator = v then pushEntry entries k else entries) records v := by
  unfold pushAll
  by_cases h : k.validator = v
  · simp [h]
  · simp [h]

namespace Registry

theorem entries_recordKey (r : Registry) (k : RecordKey) (v : ValidatorId) :
    (keepOnError (r.recordKey systemAddress k.validator k.vEff k.key) r).entries v =
      if k.validator = v then pushEntry (r.entries v) k else r.entries v := by
  unfold pushEntry
  cases hlater : (r.entries k.validator).getLast?.all (·.vEff < k.vEff) with
  | false =>
    have hrevert : r.recordKey systemAddress k.validator k.vEff k.key =
        .error .vEffNotIncreasing := by
      unfold recordKey onlyWriter
      simp only [hlater]
      rfl
    rw [hrevert]
    split_ifs with hv hall
    · rw [hv, hall] at hlater
      cases hlater
    · rfl
    · rfl
  | true =>
    have hwritten : r.recordKey systemAddress k.validator k.vEff k.key =
        .ok { r with
          history := r.history.insert k.validator (r.entries k.validator ++ [k.entry]) } := by
      unfold recordKey onlyWriter
      simp only [hlater]
      rfl
    have hentries : (keepOnError (r.recordKey systemAddress k.validator k.vEff k.key) r).entries v =
        (Table.get? (r.history.insert k.validator (r.entries k.validator ++ [k.entry])) v).getD
          [] := by
      rw [hwritten]
      rfl
    rw [hentries, Table.get?_insert]
    by_cases hv : k.validator = v
    · rw [if_pos hv.symm, if_pos hv, ← hv, hlater]
      rfl
    · rw [if_neg (Ne.symm hv), if_neg hv]
      rfl

theorem entries_recordWeight (r : Registry) (w : NodeId × ℕ) :
    (keepOnError (r.recordWeight systemAddress w.1 w.2) r).entries = r.entries := by
  apply keepOnError_keeps (f := fun r : Registry => r.entries)
  intro r' h
  obtain ⟨_, -, h⟩ := bind_eq_ok.mp h
  obtain ⟨_, -, h⟩ := bind_eq_ok.mp h
  obtain ⟨_, -, h⟩ := bind_eq_ok.mp h
  obtain rfl := Except.ok.inj h
  rfl

theorem entries_recordSettled (r : Registry) (view : ℕ) :
    (keepOnError (r.recordSettled systemAddress view) r).entries = r.entries := by
  apply keepOnError_keeps (f := fun r : Registry => r.entries)
  intro r' h
  obtain ⟨_, -, h⟩ := bind_eq_ok.mp h
  obtain rfl := Except.ok.inj h
  split_ifs <;> rfl

/-- A payload adds its records of each validator, in their order. -/
theorem entries_applyWrites (r : Registry) (payload : RegistryPayload) (v : ValidatorId) :
    (r.applyWrites payload).entries v = pushAll (r.entries v) payload.keys v := by
  have hkeys : ∀ (ks : List RecordKey) (r : Registry), (ks.foldl (fun r k =>
      keepOnError (r.recordKey systemAddress k.validator k.vEff k.key) r) r).entries v =
        pushAll (r.entries v) ks v := by
    intro ks
    induction ks with
    | nil => exact fun _ => rfl
    | cons k ks ih =>
      intro r
      rw [List.foldl_cons, ih, entries_recordKey, pushAll_cons]
  have hweights : ∀ r : Registry, (payload.weights.foldl (fun r w =>
      keepOnError (r.recordWeight systemAddress w.1 w.2) r) r).entries = r.entries :=
    fun r => foldl_keeps (f := Registry.entries) (fun r w => entries_recordWeight r w) r _
  unfold applyWrites
  cases payload.settledView with
  | none => simp only [Option.elim_none, hweights, hkeys]
  | some view => simp only [Option.elim_some, entries_recordSettled, hweights, hkeys]

/-- The entries of every validator are in the order of their views. -/
theorem pairwise_pushEntry {entries : List RegistryEntry} (k : RecordKey)
    (h : entries.Pairwise fun a b => a.vEff < b.vEff) :
    (pushEntry entries k).Pairwise fun a b => a.vEff < b.vEff := by
  unfold pushEntry
  split_ifs with hlater
  · refine List.pairwise_append.mpr ⟨h, List.pairwise_singleton _ _, ?_⟩
    intro a ha b hb
    obtain rfl := List.mem_singleton.mp hb
    cases hl : entries.getLast? with
    | none =>
      rw [List.getLast?_eq_none_iff.mp hl] at ha
      cases ha
    | some last =>
      obtain ⟨init, rfl⟩ := List.getLast?_eq_some_iff.mp hl
      have hlast : last.vEff < k.vEff := by simpa using hlater
      rcases List.mem_append.mp ha with ha | ha
      · have hbefore := (List.pairwise_append.mp h).2.2 a ha last (List.mem_singleton_self _)
        exact hbefore.trans hlast
      · rw [List.mem_singleton.mp ha]
        exact hlast
  · exact h

end Registry

/-! ### The consensus side -/

/-- The BLS entries of a validator, none if it is unknown. -/
def Histories.blsEntries (h : Histories) (v : ValidatorId) : List KeyEntry :=
  (h.bls.bind fun b => b.byStableId.get? v).getD []

section
variable (toG1 : BlsPublicKey → Option Bytes)

/-- An entry as the contract holds it. -/
def onChain (e : KeyEntry) : RegistryEntry := ⟨e.vEff, (toG1 e.key).getD []⟩

/-- The contract holds the BLS entries of consensus in their EIP-2537 form. -/
structure Mirrors (r : Registry) (h : Histories) : Prop where
  entries : ∀ v, r.entries v = (h.blsEntries v).map (onChain toG1)
  inG1 : ∀ v, ∀ e ∈ h.blsEntries v, (toG1 e.key).isSome
  sorted : ∀ v, (r.entries v).Pairwise fun a b => a.vEff < b.vEff

variable {toG1}

/-- A mirrored history is read alike on both sides. -/
theorem Mirrors.keyAt {r : Registry} {h : Histories} {bls : BlsKeyHistory}
    (hm : Mirrors toG1 r h) (hbls : h.bls = some bls) (v : ValidatorId) (w : ℕ) :
    match bls.keyAt v w with
    | none => r.keyAt v w = []
    | some pk => toG1 pk = some (r.keyAt v w) := by
  have hsorted : (h.blsEntries v).Pairwise fun e e' => e.vEff < e'.vEff := by
    have hs := hm.sorted v
    rw [hm.entries, List.pairwise_map] at hs
    exact hs
  have hconsensus : bls.keyAt v w =
      (((h.blsEntries v).filter fun e => e.vEff ≤ w).getLast?).map KeyEntry.key := by
    unfold BlsKeyHistory.keyAt Histories.blsEntries at *
    rw [hbls] at hsorted ⊢
    simp only [Option.bind_some] at hsorted ⊢
    cases he : bls.byStableId.get? v with
    | none => rfl
    | some entries =>
      rw [he] at hsorted
      exact congrArg (fun l : List KeyEntry => l.getLast?.map KeyEntry.key)
        (takeWhile_eq_filter_of_sorted hsorted w)
  have hcontract : r.keyAt v w = ((((h.blsEntries v).filter fun e => e.vEff ≤ w).getLast?).map
      fun e => (toG1 e.key).getD []).getD [] := by
    unfold Registry.keyAt
    rw [← List.head?_filter, List.filter_reverse, List.head?_reverse, hm.entries,
      List.filter_map, List.getLast?_map, Option.map_map]
    rfl
  rw [hconsensus, hcontract]
  cases hl : ((h.blsEntries v).filter fun e => e.vEff ≤ w).getLast? with
  | none => rfl
  | some e =>
    have he := List.mem_of_mem_filter (List.mem_of_getLast? hl)
    obtain ⟨key, hkey⟩ := Option.isSome_iff_exists.mp (hm.inG1 v e he)
    simp [hkey]

end

/-! ### The loops over the commands of a block -/

/-- The record that a command of one kind makes. -/
def recordOf (toG1 : BlsPublicKey → Option Bytes) (payload : Option ValidatorKeyRotation) :
    Option RecordKey :=
  payload.bind fun payload => (recordKey? toG1 payload).toOption.join

section
variable (toG1 : BlsPublicKey → Option Bytes) (R : HistoryPrimitives) (chainId : ChainId)
  (commitView : ℕ)

def rotationRecord (cmd : Bytes) : Option RecordKey :=
  recordOf toG1 ((decodeTagged rotationTag R.decodeRotation cmd).map (·.payload))

def operatorRecord (cmd : Bytes) : Option RecordKey :=
  recordOf toG1 ((decodeTagged operatorRotationTag R.decodeOperatorRotation cmd).map (·.payload))

/-- Consensus takes the new key for the validator that the record names, which has BLS entries;
or neither side takes it: it is not accepted and not later than the last entry. -/
def TakenAlike (h : Histories) (record : Option RecordKey) (change : Option KeyChange) : Prop :=
  match record, change with
  | none, none => True
  | some k, none => ∃ last ∈ (h.blsEntries k.validator).getLast?, k.vEff ≤ last.vEff
  | some k, some (.rotate id _) => id = k.validator ∧ h.blsEntries id ≠ []
  | _, _ => False

instance TakenAlike.decidable (h : Histories) :
    ∀ record change, Decidable (TakenAlike h record change)
  | none, none => inferInstanceAs (Decidable True)
  | some k, none =>
    inferInstanceAs (Decidable (∃ last ∈ (h.blsEntries k.validator).getLast?, k.vEff ≤ last.vEff))
  | some k, some (.rotate id _) =>
    inferInstanceAs (Decidable (id = k.validator ∧ h.blsEntries id ≠ []))
  | none, some _ | some _, some (.seat ..) | some _, some (.withdraw ..) =>
    inferInstanceAs (Decidable False)

end

theorem appendEntry_eq {t : Table NodeId (List KeyEntry)} {id : NodeId}
    {entries : List KeyEntry} {last : KeyEntry} (hget : t.get? id = some entries)
    (hl : entries.getLast? = some last) (vEff key : ℕ) :
    appendEntry t id vEff key =
      if last.vEff < vEff then .ok (t.insert id (entries ++ [⟨vEff, key⟩]))
      else .error (.vEffNotStrictlyIncreasing last.vEff vEff) := by
  by_cases hlt : last.vEff < vEff
  · rw [if_pos hlt]
    exact bind_eq_ok.mpr ⟨entries, okOr_eq_ok.mpr hget, bind_eq_ok.mpr ⟨last, okOr_eq_ok.mpr hl,
      bind_eq_ok.mpr ⟨(), require_eq_ok.mpr (decide_eq_true hlt), rfl⟩⟩⟩
  · rw [if_neg hlt]
    simp [appendEntry, hget, okOr, hl, require, hlt, bind, Except.bind]

theorem keepOnError_applyRotation {b : BlsKeyHistory} {id : NodeId} {entries : List KeyEntry}
    {last : KeyEntry} (hget : b.byStableId.get? id = some entries)
    (hl : entries.getLast? = some last) (vEff : ℕ) (pk : BlsPublicKey) :
    keepOnError (b.applyRotation id vEff pk) b =
      if last.vEff < vEff then ⟨b.byStableId.insert id (entries ++ [⟨vEff, pk⟩])⟩ else b := by
  unfold BlsKeyHistory.applyRotation
  rw [appendEntry_eq hget hl]
  split_ifs <;> rfl

theorem blsEntries_rotateBls {h h' : Histories} {id : ValidatorId}
    {rotation : ValidatorKeyRotation} {pk : BlsPublicKey}
    (hbls : h'.bls = rotateBls h.bls id rotation) (hpk : rotation.newBlsPubkey = some pk)
    (hne : h.blsEntries id ≠ []) (v : ValidatorId) :
    h'.blsEntries v =
      if id = v ∧ (h.blsEntries v).getLast?.all (·.vEff < rotation.vEff) then
        h.blsEntries v ++ [⟨rotation.vEff, pk⟩]
      else h.blsEntries v := by
  cases hb : h.bls with
  | none =>
    unfold Histories.blsEntries at hne
    rw [hb] at hne
    exact absurd rfl hne
  | some b =>
    have hentries : ∀ v, h.blsEntries v = (b.byStableId.get? v).getD [] := by
      intro v
      unfold Histories.blsEntries
      rw [hb]
      rfl
    cases hget : b.byStableId.get? id with
    | none =>
      rw [hentries, hget] at hne
      exact absurd rfl hne
    | some entries =>
      have hid : h.blsEntries id = entries := by rw [hentries, hget]; rfl
      cases hl : entries.getLast? with
      | none => exact absurd (hid.trans (List.getLast?_eq_none_iff.mp hl)) hne
      | some last =>
        have hrotated := keepOnError_applyRotation hget hl rotation.vEff pk
        have hentries' : h'.blsEntries v =
            ((keepOnError (b.applyRotation id rotation.vEff pk) b).byStableId.get? v).getD [] := by
          unfold Histories.blsEntries
          rw [hbls, hb]
          unfold rotateBls
          rw [hpk]
          rfl
        rw [hentries', hrotated]
        by_cases hlt : last.vEff < rotation.vEff
        · rw [if_pos hlt, Table.get?_insert]
          by_cases hv : v = id
          · rw [if_pos hv, if_pos ⟨hv.symm, by rw [hv, hid, hl]; exact decide_eq_true hlt⟩, hv, hid]
            rfl
          · rw [if_neg hv, if_neg fun hc => hv hc.1.symm, hentries]
        · rw [if_neg hlt, if_neg, hentries]
          rintro ⟨hv, hlater⟩
          rw [← hv, hid, hl] at hlater
          exact hlt (of_decide_eq_true hlater)

/-- Every BLS key of consensus has an EIP-2537 form. -/
def Histories.InG1 (toG1 : BlsPublicKey → Option Bytes) (h : Histories) : Prop :=
  ∀ v, ∀ e ∈ h.blsEntries v, (toG1 e.key).isSome

theorem getLast?_onChain (toG1 : BlsPublicKey → Option Bytes) (entries : List KeyEntry)
    (vEff : ℕ) : (entries.map (onChain toG1)).getLast?.all (·.vEff < vEff) =
      entries.getLast?.all (·.vEff < vEff) := by
  rw [List.getLast?_map, Option.all_map]
  rfl

theorem recordOf_eq_some {toG1 : BlsPublicKey → Option Bytes}
    {payload : ValidatorKeyRotation} {k : RecordKey} (h : recordOf toG1 (some payload) = some k) :
    ∃ pk key, payload.newBlsPubkey = some pk ∧ toG1 pk = some key ∧
      k = ⟨payload.validator, payload.vEff, key⟩ := by
  unfold recordOf recordKey? at h
  rw [Option.bind_some] at h
  cases hpk : payload.newBlsPubkey with
  | none =>
    rw [hpk] at h
    cases h
  | some pk =>
    rw [hpk] at h
    cases hkey : toG1 pk with
    | none =>
      simp [hkey, okOr, Except.map, Except.toOption] at h
    | some key =>
      refine ⟨pk, key, rfl, hkey, ?_⟩
      simpa [hkey, okOr, Except.map, Except.toOption, eq_comm] using h

/-- The BLS entries after a step are those that the contract has after the records. -/
structure ExtendsBy (toG1 : BlsPublicKey → Option Bytes) (records : List RecordKey)
    (h h' : Histories) : Prop where
  entries : ∀ v, (h'.blsEntries v).map (onChain toG1) =
    pushAll ((h.blsEntries v).map (onChain toG1)) records v
  inG1 : h.InG1 toG1 → h'.InG1 toG1

theorem pushAll_congr {records records' : List RecordKey} {v : ValidatorId}
    (h : records.filter (·.validator = v) = records'.filter (·.validator = v))
    (entries : List RegistryEntry) : pushAll entries records v = pushAll entries records' v := by
  unfold pushAll
  rw [h]

namespace ExtendsBy
variable {toG1 : BlsPublicKey → Option Bytes} {records records' : List RecordKey}
  {h h' h'' : Histories}

theorem of_bls (hbls : h'.bls = h.bls) : ExtendsBy toG1 [] h h' := by
  have hsame : h'.blsEntries = h.blsEntries := by
    funext v
    unfold Histories.blsEntries
    rw [hbls]
  constructor
  · intro v
    rw [hsame]
    rfl
  · intro hg
    unfold Histories.InG1
    rw [hsame]
    exact hg

theorem trans (hfirst : ExtendsBy toG1 records h h') (hsecond : ExtendsBy toG1 records' h' h'') :
    ExtendsBy toG1 (records ++ records') h h'' := by
  constructor
  · intro v
    rw [hsecond.entries, hfirst.entries, pushAll_append]
  · exact fun hg => hsecond.inG1 (hfirst.inG1 hg)

variable (toG1) in
/-- Where every command extends the entries by its record, a loop extends them by all records. -/
theorem foldl {step : Histories → Bytes → Histories} {Q : Histories → Bytes → Prop}
    (record : Bytes → Option RecordKey)
    (hstep : ∀ h cmd, Q h cmd → ExtendsBy toG1 (record cmd).toList h (step h cmd))
    {commands : List Bytes} (hq : Along step Q h commands) :
    ExtendsBy toG1 (commands.filterMap record) h (commands.foldl step h) := by
  induction commands generalizing h with
  | nil => exact of_bls rfl
  | cons cmd commands ih =>
    have hall := (hstep h cmd hq.1).trans (ih hq.2)
    cases hr : record cmd with
    | none =>
      rw [hr] at hall
      rw [List.filterMap_cons_none hr]
      exact hall
    | some k =>
      rw [hr] at hall
      rw [List.filterMap_cons_some hr]
      exact hall

end ExtendsBy

/-- A command that both sides take alike adds the same entry, or none, on both sides. -/
theorem blsEntries_takenAlike {toG1 : BlsPublicKey → Option Bytes} {h h' : Histories}
    {payload : Option ValidatorKeyRotation} {change : Option KeyChange}
    (hq : TakenAlike h (recordOf toG1 payload) change)
    (hnone : change = none → h'.bls = h.bls)
    (hsome : ∀ id rotation, change = some (.rotate id rotation) →
      payload = some rotation ∧ h'.bls = rotateBls h.bls id rotation) :
    ExtendsBy toG1 (recordOf toG1 payload).toList h h' := by
  cases change with
  | none =>
    have hsame : ExtendsBy toG1 [] h h' := .of_bls (hnone rfl)
    cases hr : recordOf toG1 payload with
    | none => exact hsame
    | some k =>
      rw [hr] at hq
      obtain ⟨last, hlast, hle⟩ := hq
      refine ⟨?_, hsame.inG1⟩
      intro v
      rw [hsame.entries, Option.toList_some, pushAll_cons]
      by_cases hv : k.validator = v
      · have hearlier : ¬ ((h.blsEntries v).map (onChain toG1)).getLast?.all (·.vEff < k.vEff) := by
          rw [getLast?_onChain, ← hv, Option.mem_def.mp hlast]
          simpa using hle
        rw [if_pos hv, pushEntry, if_neg hearlier]
      · rw [if_neg hv]
  | some change =>
    cases hr : recordOf toG1 payload with
    | none =>
      rw [hr] at hq
      cases hq
    | some k =>
      cases change with
      | seat cmd newSet =>
        rw [hr] at hq
        cases hq
      | withdraw validator vEff =>
        rw [hr] at hq
        cases hq
      | rotate id rotation =>
        rw [hr] at hq
        obtain ⟨rfl, hne⟩ := hq
        obtain ⟨rfl, hbls⟩ := hsome _ _ rfl
        obtain ⟨pk, key, hpk, hkey, rfl⟩ := recordOf_eq_some hr
        have hentries := blsEntries_rotateBls hbls hpk hne
        refine ⟨?_, ?_⟩
        · intro v
          rw [hentries, Option.toList_some, pushAll_cons, pushEntry, getLast?_onChain]
          by_cases hv : rotation.validator = v
          · rw [if_pos hv]
            by_cases hlater : (h.blsEntries v).getLast?.all (·.vEff < rotation.vEff)
            · rw [if_pos ⟨hv, hlater⟩, if_pos hlater, List.map_append]
              simp [onChain, hkey, pushAll, RecordKey.entry]
            · rw [if_neg fun hc => hlater hc.2, if_neg hlater]
              rfl
          · rw [if_neg fun hc => hv hc.1, if_neg hv]
            rfl
        · intro hg v e he
          rw [hentries] at he
          split_ifs at he
          · rcases List.mem_append.mp he with he | he
            · exact hg v e he
            · rw [List.mem_singleton.mp he, hkey]
              rfl
          · exact hg v e he

section
variable {toG1 : BlsPublicKey → Option Bytes} {R : HistoryPrimitives} {chainId : ChainId}
  {commitView : ℕ}

theorem extendsBy_applyRotationCommand {h : Histories} {cmd : Bytes}
    (hq : TakenAlike h (rotationRecord toG1 R cmd) (acceptedRotate R chainId commitView h cmd)) :
    ExtendsBy toG1 (rotationRecord toG1 R cmd).toList h
      (applyRotationCommand R chainId commitView h cmd) := by
  apply blsEntries_takenAlike hq
  · intro hnone
    unfold acceptedRotate at hnone
    cases ha : acceptedRotation R chainId commitView h.key cmd with
    | none => rw [applyRotationCommand_of_none ha]
    | some accepted =>
      obtain ⟨rotation, stable, key⟩ := accepted
      obtain ⟨id, rfl, -⟩ := rotates_of_acceptedRotation ha
      rw [ha] at hnone
      cases hnone
  · intro id rotation hsome
    unfold acceptedRotate at hsome
    cases ha : acceptedRotation R chainId commitView h.key cmd with
    | none =>
      rw [ha] at hsome
      cases hsome
    | some accepted =>
      obtain ⟨rotation', stable, key⟩ := accepted
      obtain ⟨id', rfl, -⟩ := rotates_of_acceptedRotation ha
      rw [ha] at hsome
      obtain ⟨rfl, rfl⟩ := KeyChange.rotate.inj (Option.some.inj hsome)
      refine ⟨?_, by rw [applyRotationCommand_of_some ha]⟩
      unfold acceptedRotation at ha
      simp only [Option.bind_eq_bind] at ha
      obtain ⟨env, henv, ha⟩ := Option.bind_eq_some_iff.mp ha
      obtain ⟨current, -, ha⟩ := Option.bind_eq_some_iff.mp ha
      obtain ⟨_, -, ha⟩ := Option.bind_eq_some_iff.mp ha
      obtain ⟨_, -, ha⟩ := Option.bind_eq_some_iff.mp ha
      obtain ⟨key', -, ha⟩ := Option.bind_eq_some_iff.mp ha
      rw [henv, Option.map_some, (Prod.mk.inj (Option.some.inj ha)).1]

theorem extendsBy_operatorRotateOrSkip {operator : OperatorKeyHistory} {h : Histories}
    {cmd : Bytes} (hq : TakenAlike h (operatorRecord toG1 R cmd)
      (acceptedOperatorRotate R chainId commitView operator h cmd)) :
    ExtendsBy toG1 (operatorRecord toG1 R cmd).toList h
      (operatorRotateOrSkip R chainId commitView operator h cmd) := by
  apply blsEntries_takenAlike hq
  · intro hnone
    rcases acceptedOperatorRotate_cases R chainId commitView operator h cmd with
      ⟨-, hsame⟩ | ⟨env, id, key, -, -, hsome, -⟩
    · rw [hsame]
    · rw [hsome] at hnone
      cases hnone
  · intro id rotation hsome
    rcases acceptedOperatorRotate_cases R chainId commitView operator h cmd with
      ⟨hnone, -⟩ | ⟨env, id', key, henv, -, hsome', hstep⟩
    · rw [hnone] at hsome
      cases hsome
    · obtain ⟨rfl, rfl⟩ := KeyChange.rotate.inj (Option.some.inj (hsome'.symm.trans hsome))
      rw [henv, hstep]
      exact ⟨rfl, rfl⟩

theorem extendsBy_cancelOrSkip {h : Histories} {cmd : Bytes}
    (hnone : acceptedWithdraw R chainId commitView h cmd = none) :
    ExtendsBy toG1 [] h (cancelOrSkip R chainId commitView h cmd) := by
  rcases acceptedWithdraw_cases R chainId commitView h cmd with
    ⟨-, hsame⟩ | ⟨cancel, id, -, -, hsome, -⟩
  · rw [hsame]
    exact .of_bls rfl
  · rw [hsome] at hnone
    cases hnone

end

/-! ### Blocks -/

section
variable (toG1 : BlsPublicKey → Option Bytes) (R : HistoryPrimitives) (minVEffDelay : ℕ)
  (chainId : ChainId)

/-- Both sides take the rotations of a block alike: no newcomer has BLS keys, no rotation is
cancelled, and no validator is rotated by its operator before it rotates itself. -/
structure BlockMirrored (h : Histories) (block : Block) : Prop where
  seats : ∀ change ∈ blockChange R.toReconfigPrimitives minVEffDelay chainId h.set block,
    ∀ seat ∈ blsSeats change.1 change.2, h.blsEntries seat.1 ≠ []
  rotations : Along (applyRotationCommand R chainId block.header.view)
    (fun h cmd => TakenAlike h (rotationRecord toG1 R cmd)
      (acceptedRotate R chainId block.header.view h cmd))
    (applyReconfigCommandsToSetHistory R minVEffDelay chainId block h) block.commands
  cancels : Along (cancelOrSkip R chainId block.header.view)
    (fun h cmd => acceptedWithdraw R chainId block.header.view h cmd = none)
    (block.commands.foldl (applyRotationCommand R chainId block.header.view)
      (applyReconfigCommandsToSetHistory R minVEffDelay chainId block h)) block.commands
  operatorRotations : ∀ op ∈
    (applyReconfigCommandsToSetHistory R minVEffDelay chainId block h).operator,
    Along (operatorRotateOrSkip R chainId block.header.view op)
      (fun h cmd => TakenAlike h (operatorRecord toG1 R cmd)
        (acceptedOperatorRotate R chainId block.header.view op h cmd))
      (cancelRotations R chainId block
        (block.commands.foldl (applyRotationCommand R chainId block.header.view)
          (applyReconfigCommandsToSetHistory R minVEffDelay chainId block h))) block.commands
  ordered : ∀ v, (registryKeysFromCommands toG1 R block.commands).filter (·.validator = v) =
    (block.commands.filterMap (rotationRecord toG1 R)).filter (·.validator = v) ++
      (block.commands.filterMap (operatorRecord toG1 R)).filter (·.validator = v)

variable {toG1 R minVEffDelay chainId}

theorem bls_applyReconfigCommandsToSetHistory {h : Histories} {block : Block}
    (hseats : ∀ change ∈ blockChange R.toReconfigPrimitives minVEffDelay chainId h.set block,
      ∀ seat ∈ blsSeats change.1 change.2, h.blsEntries seat.1 ≠ []) :
    (applyReconfigCommandsToSetHistory R minVEffDelay chainId block h).bls = h.bls := by
  rw [applyReconfigCommandsToSetHistory_eq]
  cases hc : blockChange R.toReconfigPrimitives minVEffDelay chainId h.set block with
  | none => rfl
  | some change =>
    obtain ⟨cmd, newSet⟩ := change
    cases hb : h.bls with
    | none => simp only [Histories.reconfigured, hb, Option.map_none]
    | some bls =>
      have hknown : ∀ seat ∈ blsSeats cmd newSet, bls.byStableId.containsKey seat.1 = true := by
        intro seat hseat
        have hne := hseats _ hc seat hseat
        unfold Histories.blsEntries at hne
        rw [hb, Option.bind_some] at hne
        unfold Table.containsKey
        cases hget : bls.byStableId.get? seat.1 with
        | none =>
          rw [hget] at hne
          exact absurd rfl hne
        | some entries => rfl
      simp only [Histories.reconfigured, hb, Option.map_some, registerBlsKeys_eq,
        registerAll_of_contains hknown]

theorem isSome_replayBlock (h : Histories) (block : Block) :
    (replayBlock R minVEffDelay chainId h block).bls.isSome = h.bls.isSome ∧
      (replayBlock R minVEffDelay chainId h block).operator.isSome = h.operator.isSome := by
  have hids := ids_applyRotationCommandsToHistories R chainId block
    (applyReconfigCommandsToSetHistory R minVEffDelay chainId block h)
  have hbls := congrArg (fun i => i.2.1.isSome) hids
  have hoperator := congrArg (fun i => i.2.2.isSome) hids
  simp only [Histories.ids, Option.isSome_map] at hbls hoperator
  unfold replayBlock
  rw [hbls, hoperator, applyReconfigCommandsToSetHistory_eq]
  cases blockChange R.toReconfigPrimitives minVEffDelay chainId h.set block with
  | none => exact ⟨rfl, rfl⟩
  | some change => exact ⟨Option.isSome_map, Option.isSome_map⟩

/-- A block whose rotations are taken alike extends the entries of consensus by its records. -/
theorem extendsBy_replayBlock {h : Histories} {block : Block}
    (hb : BlockMirrored toG1 R minVEffDelay chainId h block) (hop : h.operator.isSome) :
    ExtendsBy toG1 (registryKeysFromCommands toG1 R block.commands) h
      (replayBlock R minVEffDelay chainId h block) := by
  obtain ⟨hseats, hrotations, hcancels, hoperators, hordered⟩ := hb
  have hseated : ExtendsBy toG1 [] h
      (applyReconfigCommandsToSetHistory R minVEffDelay chainId block h) :=
    .of_bls (bls_applyReconfigCommandsToSetHistory hseats)
  have hrotated := ExtendsBy.foldl toG1 _ (fun _ _ hq => extendsBy_applyRotationCommand hq)
    hrotations
  have hcancelled := ExtendsBy.foldl toG1 (fun _ => none)
    (fun _ _ hnone => extendsBy_cancelOrSkip hnone) hcancels
  rw [List.filterMap_none] at hcancelled
  have hsome :
      (applyReconfigCommandsToSetHistory R minVEffDelay chainId block h).operator.isSome := by
    rw [applyReconfigCommandsToSetHistory_eq]
    cases blockChange R.toReconfigPrimitives minVEffDelay chainId h.set block with
    | none => exact hop
    | some change => exact Option.isSome_map.trans hop
  obtain ⟨op, hop⟩ := Option.isSome_iff_exists.mp hsome
  have hoperated := ExtendsBy.foldl toG1 _ (fun _ _ hq => extendsBy_operatorRotateOrSkip hq)
    (hoperators op hop)
  have hreplayed := applyRotationCommandsToHistories_eq R chainId block _ op hop
  have hlast : ExtendsBy toG1 [] (applyOperatorRotations R chainId op block
      (cancelRotations R chainId block (block.commands.foldl
        (applyRotationCommand R chainId block.header.view)
        (applyReconfigCommandsToSetHistory R minVEffDelay chainId block h))))
      (replayBlock R minVEffDelay chainId h block) := by
    apply ExtendsBy.of_bls
    unfold replayBlock
    rw [hreplayed]
  have hall := (((hseated.trans hrotated).trans hcancelled).trans hoperated).trans hlast
  refine ⟨?_, hall.inG1⟩
  intro v
  rw [hall.entries]
  apply pushAll_congr
  rw [hordered]
  simp

theorem pairwise_pushAll {entries : List RegistryEntry}
    (h : entries.Pairwise fun a b => a.vEff < b.vEff) (records : List RecordKey)
    (v : ValidatorId) : (pushAll entries records v).Pairwise fun a b => a.vEff < b.vEff := by
  unfold pushAll
  induction records.filter (·.validator = v) generalizing entries with
  | nil => exact h
  | cons k records ih => exact ih (Registry.pairwise_pushEntry k h)

/-- A block whose rotations are taken alike keeps the mirror. -/
theorem mirrors_replayBlock {r : Registry} {h : Histories} {block : Block}
    (hm : Mirrors toG1 r h) (hb : BlockMirrored toG1 R minVEffDelay chainId h block)
    (hop : h.operator.isSome) (weights : List (NodeId × ℕ)) :
    Mirrors toG1
      (r.applyWrites (registryPayloadForBuild toG1 R block.header.view block.commands weights))
      (replayBlock R minVEffDelay chainId h block) := by
  have hextends := extendsBy_replayBlock hb hop
  constructor
  · intro v
    rw [Registry.entries_applyWrites, hm.entries, hextends.entries]
    rfl
  · exact hextends.inG1 hm.inG1
  · intro v
    rw [Registry.entries_applyWrites]
    exact pairwise_pushAll (hm.sorted v) _ v

end

/-! ### Chains -/

/-- The contract beside the histories of consensus. -/
structure MirroredChain where
  registry : Registry
  histories : Histories

/-- At every settled view the contract has the EIP-2537 form of the BLS key that is active, and no
key where none is. -/
def MirroredChain.SettledKeysAgree (toG1 : BlsPublicKey → Option Bytes) (c : MirroredChain) :
    Prop :=
  ∃ bls ∈ c.histories.bls, ∀ v w, w ≤ c.registry.settledView →
    (c.registry.keyAt v w = [] ↔ bls.keyAt v w = none) ∧
      ∀ pk ∈ bls.keyAt v w, toG1 pk = some (c.registry.keyAt v w)

section
variable (toG1 : BlsPublicKey → Option Bytes) (R : HistoryPrimitives) (cfg : NodeConfig)
  (chainId : ChainId)

/-- A block is executed with the weights that are pending when it is built. -/
def MirroredChain.execute (c : MirroredChain) (b : Block × List (NodeId × ℕ)) : MirroredChain where
  registry := c.registry.applyWrites
    (registryPayloadForBuild toG1 R b.1.header.view b.1.commands b.2)
  histories := replayBlock R cfg.minVEffDelay chainId c.histories b.1

variable {toG1}

theorem entries_genesisSeed {genesis : List (NodeId × BlsPublicKey × ℕ)} {r : Registry}
    (h : Registry.genesisSeed toG1 genesis = some r) (v : ValidatorId) :
    r.entries v = ((((genesis.map fun e => (e.1, e.2.1)).reverse.lookup v).map fun key =>
        [(⟨0, key⟩ : KeyEntry)]).getD []).map (onChain toG1) ∧
      ∀ key ∈ (genesis.map fun e => (e.1, e.2.1)).reverse.lookup v, (toG1 key).isSome := by
  induction genesis using List.reverseRecOn generalizing r with
  | nil =>
    obtain rfl := Option.some.inj h
    simp [Registry.entries]
  | append_singleton genesis e ih =>
    unfold Registry.genesisSeed at h
    rw [List.foldlM_append] at h
    obtain ⟨r', hr', h⟩ := Option.bind_eq_some_iff.mp h
    rw [List.foldlM_cons] at h
    obtain ⟨r'', hr'', h⟩ := Option.bind_eq_some_iff.mp h
    obtain rfl := Option.some.inj h
    obtain ⟨key, hkey, hr''⟩ := Option.bind_eq_some_iff.mp hr''
    obtain ⟨total, -, hr''⟩ := Option.bind_eq_some_iff.mp hr''
    obtain rfl := Option.some.inj hr''
    have hbefore := ih hr'
    rw [List.map_append, List.reverse_append]
    simp only [List.map_cons, List.map_nil, List.reverse_singleton, List.singleton_append,
      List.lookup_cons]
    unfold Registry.entries at hbefore ⊢
    simp only
    rw [Table.get?_insert]
    by_cases hv : v = e.1
    · rw [if_pos hv, hv, beq_self_eq_true]
      simp [onChain, hkey]
    · rw [if_neg hv, beq_false_of_ne hv]
      exact hbefore

variable {cfg}

/-- The genesis seed mirrors the genesis keys. -/
theorem mirrors_genesisSeed {genesis : List (NodeId × BlsPublicKey × ℕ)} {r : Registry}
    (h : Registry.genesisSeed toG1 genesis = some r)
    (hcfg : cfg.genesisBls = genesis.map fun e => (e.1, e.2.1)) :
    Mirrors toG1 r cfg.genesisHistories := by
  have hbls : ∀ v, cfg.genesisHistories.blsEntries v =
      (((genesis.map fun e => (e.1, e.2.1)).reverse.lookup v).map fun key =>
        [(⟨0, key⟩ : KeyEntry)]).getD [] := by
    intro v
    unfold Histories.blsEntries NodeConfig.genesisHistories
    rw [Option.bind_some, get?_withGenesis, hcfg]
  constructor
  · intro v
    rw [hbls]
    exact (entries_genesisSeed h v).1
  · intro v e he
    rw [hbls] at he
    cases hl : (genesis.map fun e => (e.1, e.2.1)).reverse.lookup v with
    | none =>
      rw [hl] at he
      cases he
    | some key =>
      rw [hl] at he
      obtain rfl := List.mem_singleton.mp he
      exact (entries_genesisSeed h v).2 key hl
  · intro v
    rw [(entries_genesisSeed h v).1]
    cases (genesis.map fun e => (e.1, e.2.1)).reverse.lookup v <;> simp

variable {R chainId}

/-- Along a chain whose rotations both sides take alike, the contract has the BLS key of every
validator at every settled view. -/
theorem settled_keys_mirrored {genesis : List (NodeId × BlsPublicKey × ℕ)} {r : Registry}
    (hform : ∀ pk key, toG1 pk = some key → key.length = 128)
    (hseed : Registry.genesisSeed toG1 genesis = some r)
    (hcfg : cfg.genesisBls = genesis.map fun e => (e.1, e.2.1))
    {blocks : List (Block × List (NodeId × ℕ))}
    (hblocks : Along (MirroredChain.execute toG1 R cfg chainId)
      (fun c b => BlockMirrored toG1 R cfg.minVEffDelay chainId c.histories b.1)
      ⟨r, cfg.genesisHistories⟩ blocks) :
    (run (MirroredChain.execute toG1 R cfg chainId) ⟨r, cfg.genesisHistories⟩
      blocks).SettledKeysAgree toG1 := by
  have hend := hblocks.invariant (I := fun c => Mirrors toG1 c.registry c.histories ∧
      c.histories.bls.isSome ∧ c.histories.operator.isSome)
    (fun c b hb ⟨hm, hbls, hop⟩ => ⟨mirrors_replayBlock hm hb hop b.2,
      (isSome_replayBlock c.histories b.1).1.trans hbls,
      (isSome_replayBlock c.histories b.1).2.trans hop⟩)
    ⟨mirrors_genesisSeed hseed hcfg, rfl, rfl⟩
  generalize run (MirroredChain.execute toG1 R cfg chainId) ⟨r, cfg.genesisHistories⟩ blocks = c
    at hend ⊢
  obtain ⟨hm, hsome, -⟩ := hend
  obtain ⟨bls, hbls⟩ := Option.isSome_iff_exists.mp hsome
  refine ⟨bls, hbls, ?_⟩
  intro v w _
  have hkey := hm.keyAt hbls v w
  cases hk : bls.keyAt v w with
  | none =>
    rw [hk] at hkey
    simp [hkey]
  | some pk =>
    rw [hk] at hkey
    refine ⟨?_, ?_⟩
    · have hlength := hform pk _ hkey
      constructor
      · intro hempty
        rw [hempty] at hlength
        cases hlength
      · intro hnone
        cases hnone
    · intro pk' hpk'
      obtain rfl := Option.some.inj hpk'
      exact hkey

end

namespace Sample

/-- A key, padded to 128 bytes. -/
def toG1 (pk : BlsPublicKey) : Option Bytes := some (List.replicate 127 0 ++ [.ofNat pk])

def weighted : List (NodeId × BlsPublicKey × ℕ) := config.genesisBls.map fun e => (e.1, e.2, 1)

def executing (blocks : List Block) : Option MirroredChain :=
  (Registry.genesisSeed toG1 weighted).map fun r =>
    run (MirroredChain.execute toG1 allChanges config chainId) ⟨r, config.genesisHistories⟩
      (blocks.map fun b => (b, []))

/-- Nothing happens until the rotation is settled. -/
def settling : Block := blockOn rotating 24 0 []

/-- The new key of validator 4 would be active after one view, which is too soon. -/
def hasty : Block := blockOn root 10 0 [rotationTag ++ [4, 40, 44, 11]]

theorem ordered_of_operator_nil {commands : List Bytes}
    (hrecords : registryKeysFromCommands toG1 allChanges commands =
      commands.filterMap (rotationRecord toG1 allChanges))
    (hoperator : commands.filterMap (operatorRecord toG1 allChanges) = []) (v : ValidatorId) :
    (registryKeysFromCommands toG1 allChanges commands).filter (·.validator = v) =
      (commands.filterMap (rotationRecord toG1 allChanges)).filter (·.validator = v) ++
        (commands.filterMap (operatorRecord toG1 allChanges)).filter (·.validator = v) := by
  rw [hrecords, hoperator]
  simp

theorem rotation_settled : ∃ c ∈ executing [rotating, settling], c.SettledKeysAgree toG1 ∧
    c.registry.settledView = 20 := by
  obtain ⟨r, hr, hview, hfirst, hsecond⟩ : ∃ r ∈ Registry.genesisSeed toG1 weighted,
      (run (MirroredChain.execute toG1 allChanges config chainId) ⟨r, config.genesisHistories⟩
        [(rotating, []), (settling, [])]).registry.settledView = 20 ∧
      BlockMirrored toG1 allChanges config.minVEffDelay chainId config.genesisHistories
        rotating ∧
      BlockMirrored toG1 allChanges config.minVEffDelay chainId
        (replayBlock allChanges config.minVEffDelay chainId config.genesisHistories rotating)
        settling := by
    obtain ⟨r, hr, hview⟩ : ∃ r ∈ Registry.genesisSeed toG1 weighted,
        (run (MirroredChain.execute toG1 allChanges config chainId) ⟨r, config.genesisHistories⟩
          [(rotating, []), (settling, [])]).registry.settledView = 20 := by decide +kernel
    refine ⟨r, hr, hview, ?_, ?_⟩
    · exact ⟨by decide +kernel, by decide +kernel, by decide +kernel, by decide +kernel,
        ordered_of_operator_nil (by decide +kernel) (by decide +kernel)⟩
    · exact ⟨by decide +kernel, by decide +kernel, by decide +kernel, by decide +kernel,
        ordered_of_operator_nil (by decide +kernel) (by decide +kernel)⟩
  have hblocks : Along (MirroredChain.execute toG1 allChanges config chainId)
      (fun c b => BlockMirrored toG1 allChanges config.minVEffDelay chainId c.histories b.1)
      ⟨r, config.genesisHistories⟩ [(rotating, []), (settling, [])] := ⟨hfirst, hsecond, trivial⟩
  have hagree := settled_keys_mirrored
    (fun pk key hkey => by obtain rfl := Option.some.inj hkey; simp) hr (by decide) hblocks
  refine ⟨_, Option.map_eq_some_iff.mpr ⟨r, hr, rfl⟩, hagree, hview⟩

/-- The contract records the key of a rotation that consensus refuses. -/
theorem hasty_recorded : ∃ c ∈ executing [hasty, blockOn hasty 20 0 []],
    ¬ c.SettledKeysAgree toG1 := by
  obtain ⟨c, hc, bls, hbls, hview, hkey, hregistry⟩ :
      ∃ c ∈ executing [hasty, blockOn hasty 20 0 []], ∃ bls ∈ c.histories.bls,
        12 ≤ c.registry.settledView ∧ bls.keyAt 4 12 = some 14 ∧
          toG1 14 ≠ some (c.registry.keyAt 4 12) := by decide +kernel
  refine ⟨c, hc, ?_⟩
  rintro ⟨bls', hbls', hagree⟩
  obtain rfl := Option.some.inj ((Option.mem_def.mp hbls).symm.trans (Option.mem_def.mp hbls'))
  exact hregistry ((hagree 4 12 hview).2 14 hkey)

end Sample

end Boule
