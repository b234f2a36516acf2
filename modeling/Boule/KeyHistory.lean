import Boule.Lib.Checks
import Boule.Lib.Table
import Boule.ValidatorHistory
import Mathlib.Data.List.Sort

/-! Keys by view: the envelope, BLS and operator keys of each validator. -/
namespace Boule

/-- A key and the first view in which it is active. -/
structure KeyEntry where
  vEff : ℕ
  key : ℕ
  deriving DecidableEq

/-- A history never holds an empty list of entries, so `register` is for new ids only. -/
def register (t : Table NodeId (List KeyEntry)) (stableId : NodeId) (vEff key : ℕ) :
    Table NodeId (List KeyEntry) :=
  if t.containsKey stableId then t else t.insert stableId [⟨vEff, key⟩]

/-- The last entry that is active at `view`; entries are in the order of their views. -/
def keyAt (entries : List KeyEntry) (view : ℕ) : Option ℕ :=
  (entries.takeWhile fun e => e.vEff ≤ view).getLast?.map KeyEntry.key

/-- One validator of a persisted key history. -/
structure PersistedValidator where
  stableId : NodeId
  entries : List KeyEntry
  deriving DecidableEq

/-- The persisted form of all three key histories. -/
structure PersistedKeyHistory where
  validators : List PersistedValidator
  deriving DecidableEq

/-- The failures of the three `from_persisted`; only envelope keys have the last two. -/
inductive PersistedKeyError where
  | noEntries (stableId : NodeId)
  | notIncreasing (stableId : NodeId) (vEff prev : ℕ)
  | firstKeyMismatch (stableId key : NodeId)
  | claimedByBoth (key owner stableId : NodeId)
  deriving DecidableEq

/-- A `BTreeMap` in key order. -/
def persistKeys (t : Table NodeId (List KeyEntry)) : PersistedKeyHistory :=
  ⟨(t.toList.insertionSort fun a b => a.1 ≤ b.1).map fun e => ⟨e.1, e.2⟩⟩

/-- The entries of one validator, each at a larger view than the one before. -/
def checkIncreasing (stableId : NodeId) : Option ℕ → List KeyEntry → Except PersistedKeyError Unit
  | _, [] => .ok ()
  | prev, e :: es => do
    require (prev.all (· < e.vEff)) (.notIncreasing stableId e.vEff (prev.getD 0))
    checkIncreasing stableId (some e.vEff) es

def restoreKeys (persisted : PersistedKeyHistory) :
    Except PersistedKeyError (Table NodeId (List KeyEntry)) :=
  persisted.validators.foldlM (fun t v => do
    require (!v.entries.isEmpty) (.noEntries v.stableId)
    checkIncreasing v.stableId none v.entries
    return t.insert v.stableId v.entries) ∅

structure ValidatorKeyHistory where
  byStableId : Table NodeId (List KeyEntry)
  pubkeyToStableId : Table NodeId NodeId
  deriving DecidableEq

namespace ValidatorKeyHistory

def validatorFor (h : ValidatorKeyHistory) (pubkey : NodeId) : Option ValidatorId :=
  h.pubkeyToStableId.get? pubkey

def keyAt (h : ValidatorKeyHistory) (validator : ValidatorId) (view : ℕ) : Option NodeId :=
  (h.byStableId.get? validator).bind (Boule.keyAt · view)

/-- Every genesis validator starts with its own id as its key. -/
def new (genesisValidators : List ValidatorId) : ValidatorKeyHistory where
  byStableId := genesisValidators.foldl (fun t v => register t v 0 v) ∅
  pubkeyToStableId := genesisValidators.foldl (fun t v => t.insert v v) ∅

/-- Every member starts with its own id as its key, at the first boundary that seats it. -/
def fromSetHistory (h : ValidatorSetHistory) : ValidatorKeyHistory :=
  let seats := h.iter.flatMap fun b => b.2.members.map fun m => (b.1, m)
  { byStableId := seats.foldl (fun t s => register t s.2 s.1 s.2) ∅
    pubkeyToStableId := seats.foldl (fun t s => t.insert s.2 s.2) ∅ }

def toPersisted (h : ValidatorKeyHistory) : PersistedKeyHistory := persistKeys h.byStableId

/-- The loop over one validator's entries. -/
def claimKeys (stableId : NodeId) (owners : Table NodeId NodeId) :
    Option ℕ → List KeyEntry → Except PersistedKeyError (Table NodeId NodeId)
  | _, [] => .ok owners
  | prev, e :: es => do
    require (prev.all (· < e.vEff)) (.notIncreasing stableId e.vEff (prev.getD 0))
    let owner := (owners.get? e.key).getD stableId
    require (owner = stableId) (.claimedByBoth e.key owner stableId)
    claimKeys stableId (owners.insert e.key stableId) (some e.vEff) es

def fromPersisted (persisted : PersistedKeyHistory) :
    Except PersistedKeyError ValidatorKeyHistory :=
  persisted.validators.foldlM (fun h v => do
    let first ← okOr v.entries.head? (.noEntries v.stableId)
    require (first.key = v.stableId) (.firstKeyMismatch v.stableId first.key)
    let owners ← claimKeys v.stableId h.pubkeyToStableId none v.entries
    return ⟨h.byStableId.insert v.stableId v.entries, owners⟩) ⟨∅, ∅⟩

end ValidatorKeyHistory

structure BlsKeyHistory where
  byStableId : Table NodeId (List KeyEntry)
  deriving DecidableEq

namespace BlsKeyHistory

structure MissingBlsPubkey where
  stableId : NodeId
  view : ℕ
  deriving DecidableEq

def withGenesis (genesis : List (NodeId × BlsPublicKey)) : BlsKeyHistory where
  byStableId := genesis.foldl (fun t e => t.insert e.1 [⟨0, e.2⟩]) ∅

def keyAt (h : BlsKeyHistory) (stableId : NodeId) (view : ℕ) : Option BlsPublicKey :=
  (h.byStableId.get? stableId).bind (Boule.keyAt · view)

def toPersisted (h : BlsKeyHistory) : PersistedKeyHistory := persistKeys h.byStableId

def fromPersisted (persisted : PersistedKeyHistory) : Except PersistedKeyError BlsKeyHistory :=
  (restoreKeys persisted).map BlsKeyHistory.mk

def pubkeysForSet (h : BlsKeyHistory) (set : ValidatorSet) (view : ℕ) :
    Except MissingBlsPubkey (List BlsPublicKey) :=
  set.members.mapM fun stableId => okOr (h.keyAt stableId view) ⟨stableId, view⟩

/-- One key per member. -/
theorem length_of_pubkeysForSet {h : BlsKeyHistory} {set : ValidatorSet} {view : ℕ}
    {keys : List BlsPublicKey} (hk : h.pubkeysForSet set view = .ok keys) :
    keys.length = set.len := by
  unfold pubkeysForSet at hk
  rw [ValidatorSet.len]
  generalize set.members = members at hk
  induction members generalizing keys with
  | nil =>
    obtain rfl : [] = keys := by simpa [pure, Except.pure] using hk
    rfl
  | cons m members ih =>
    rw [List.mapM_cons] at hk
    obtain ⟨k, -, hk⟩ := bind_eq_ok.mp hk
    obtain ⟨ks, hks, hk⟩ := bind_eq_ok.mp hk
    obtain rfl : k :: ks = keys := by simpa [pure, Except.pure] using hk
    rw [List.length_cons, List.length_cons, ih hks]

end BlsKeyHistory

structure OperatorKeyHistory where
  byStableId : Table NodeId (List KeyEntry)
  deriving DecidableEq

namespace OperatorKeyHistory

def withGenesis (genesis : List (ValidatorId × NodeId)) : OperatorKeyHistory where
  byStableId := genesis.foldl (fun t e => register t e.1 0 e.2) ∅

def toPersisted (h : OperatorKeyHistory) : PersistedKeyHistory := persistKeys h.byStableId

def fromPersisted (persisted : PersistedKeyHistory) :
    Except PersistedKeyError OperatorKeyHistory :=
  (restoreKeys persisted).map OperatorKeyHistory.mk

end OperatorKeyHistory

end Boule
