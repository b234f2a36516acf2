import Boule.HistoryLookups

/-! The network endpoints that validators publish on the chain. -/
namespace Boule

/-- `b"ENDPT\0"` -/
def endpointTag : Bytes := [0x45, 0x4e, 0x44, 0x50, 0x54, 0x00]

inductive EndpointOp where
  | set (entries : List EndpointEntry)
  | add (entries : List EndpointEntry)
  | remove (ids : List NodeId)
  deriving DecidableEq

structure EndpointCommand where
  validator : NodeId
  seq : ℕ
  op : EndpointOp
  deriving DecidableEq

structure SignedEndpointCommand where
  payload : EndpointCommand
  sig : ℕ
  deriving DecidableEq

inductive EndpointApplyError where
  | nonMonotonicSeq (lastSeq seq : ℕ)
  | duplicateNetworkId (id : NodeId)
  | tooLong (max got : ℕ)
  deriving DecidableEq

/-- The default is what a validator has that is not listed. -/
structure ValidatorEndpoints where
  lastSeq : ℕ := 0
  entries : List EndpointEntry := []
  deriving DecidableEq

structure EndpointRegistry where
  byValidator : Table NodeId ValidatorEndpoints
  maxLen : ℕ
  deriving DecidableEq

def dedupCheck (entries : List EndpointEntry) : Except EndpointApplyError Unit :=
  refuse (firstDuplicate [] (entries.map EndpointEntry.networkId)) .duplicateNetworkId

/-- The entries of a validator with more of them, none under an id that is there. -/
def addEntries (entries : List EndpointEntry) (more : List EndpointEntry) :
    Except EndpointApplyError (List EndpointEntry) :=
  more.foldlM (fun next e => do
    refuse (next.find? (·.networkId = e.networkId)) fun _ => .duplicateNetworkId e.networkId
    return next ++ [e]) entries

namespace EndpointRegistry

def new (maxLen : ℕ) : EndpointRegistry := ⟨∅, maxLen⟩

def setMaxLen (r : EndpointRegistry) (maxLen : ℕ) : EndpointRegistry := { r with maxLen := maxLen }

/-- `entry(..).or_default()` -/
def current (r : EndpointRegistry) (validator : NodeId) : ValidatorEndpoints :=
  (r.byValidator.get? validator).getD {}

def endpointsOf (r : EndpointRegistry) (validator : NodeId) : List EndpointEntry :=
  (r.current validator).entries

def lastSeq (r : EndpointRegistry) (validator : NodeId) : ℕ := (r.current validator).lastSeq

def put (r : EndpointRegistry) (validator : NodeId) (e : ValidatorEndpoints) : EndpointRegistry :=
  { r with byValidator := r.byValidator.insert validator e }

/-- With whether the validator was listed. -/
def forget (r : EndpointRegistry) (validator : NodeId) : EndpointRegistry × Bool :=
  ({ r with byValidator := r.byValidator.erase validator }, r.byValidator.containsKey validator)

def seed (r : EndpointRegistry) (validator : NodeId) (entries : List EndpointEntry) :
    Except EndpointApplyError EndpointRegistry := do
  if entries.isEmpty then return r
  dedupCheck entries
  require (entries.length ≤ r.maxLen) (.tooLong r.maxLen entries.length)
  return r.put validator ⟨0, entries⟩

/-- What a validator has after a command. -/
def proposed (maxLen : ℕ) (cur : ValidatorEndpoints) (cmd : EndpointCommand) :
    Except EndpointApplyError ValidatorEndpoints := do
  require (cur.lastSeq < cmd.seq) (.nonMonotonicSeq cur.lastSeq cmd.seq)
  let next ← match cmd.op with
    | .set entries => (dedupCheck entries).map fun _ => entries
    | .add entries => dedupCheck entries >>= fun _ => addEntries cur.entries entries
    | .remove ids => .ok (cur.entries.filter (·.networkId ∉ ids))
  require (next.length ≤ maxLen) (.tooLong maxLen next.length)
  return ⟨cmd.seq, next⟩

/-- A command that fails still lists its validator. -/
def apply (r : EndpointRegistry) (cmd : EndpointCommand) :
    EndpointRegistry × Except EndpointApplyError Unit :=
  let cur := r.current cmd.validator
  match proposed r.maxLen cur cmd with
  | .error e => (r.put cmd.validator cur, .error e)
  | .ok next => (r.put cmd.validator next, .ok ())

/-- Equal in what can be looked up: a validator without endpoints need not be listed. -/
structure Alike (r r' : EndpointRegistry) : Prop where
  current : ∀ validator, r.current validator = r'.current validator
  maxLen : r.maxLen = r'.maxLen

theorem Alike.refl (r : EndpointRegistry) : r.Alike r := ⟨fun _ => rfl, rfl⟩

theorem Alike.symm {r r' : EndpointRegistry} (h : r.Alike r') : r'.Alike r :=
  ⟨fun v => (h.current v).symm, h.maxLen.symm⟩

theorem Alike.trans {r r' r'' : EndpointRegistry} (h : r.Alike r') (h' : r'.Alike r'') :
    r.Alike r'' :=
  ⟨fun v => (h.current v).trans (h'.current v), h.maxLen.trans h'.maxLen⟩

theorem current_put (r : EndpointRegistry) (id v : NodeId) (e : ValidatorEndpoints) :
    (r.put id e).current v = if v = id then e else r.current v := by
  unfold current put
  rw [Table.get?_insert]
  split_ifs <;> rfl

theorem current_forget (r : EndpointRegistry) (id v : NodeId) :
    (r.forget id).1.current v = if v = id then {} else r.current v := by
  unfold current forget
  rw [Table.get?_erase]
  split_ifs <;> rfl

section
variable {r r' : EndpointRegistry}

theorem Alike.put (h : r.Alike r') (id : NodeId) (e : ValidatorEndpoints) :
    (r.put id e).Alike (r'.put id e) := by
  refine ⟨fun v => ?_, h.maxLen⟩
  rw [current_put, current_put, h.current v]

theorem Alike.forget (h : r.Alike r') (id : NodeId) : (r.forget id).1.Alike (r'.forget id).1 := by
  refine ⟨fun v => ?_, h.maxLen⟩
  rw [current_forget, current_forget, h.current v]

/-- Forgetting a validator that is not listed changes nothing. -/
theorem forget_of_not_listed {id : NodeId} (h : (r.forget id).2 = false) :
    (r.forget id).1.Alike r := by
  refine ⟨fun v => ?_, rfl⟩
  rw [current_forget]
  split_ifs with hv
  · have hnone := (Table.containsKey_eq_false_iff r.byValidator id).mp h
    rw [hv, current, hnone]
    rfl
  · rfl

theorem Alike.seed (h : r.Alike r') (id : NodeId) (entries : List EndpointEntry) :
    SameOutcome Alike (r.seed id entries) (r'.seed id entries) := by
  unfold EndpointRegistry.seed
  split_ifs
  · exact .ok h
  · rw [h.maxLen]
    apply SameOutcome.bind_same
    intro _
    apply SameOutcome.bind_same
    intro _
    exact .ok (h.put id ⟨0, entries⟩)

theorem maxLen_of_seed {id : NodeId} {entries : List EndpointEntry}
    (h : r.seed id entries = .ok r') : r'.maxLen = r.maxLen := by
  unfold EndpointRegistry.seed at h
  by_cases hempty : entries.isEmpty = true
  · rw [if_pos hempty] at h
    rw [← Except.ok.inj h]
  · rw [if_neg hempty] at h
    obtain ⟨_, -, h⟩ := bind_eq_ok.mp h
    obtain ⟨_, -, h⟩ := bind_eq_ok.mp h
    rw [← Except.ok.inj h]
    rfl

theorem maxLen_apply (r : EndpointRegistry) (cmd : EndpointCommand) :
    (r.apply cmd).1.maxLen = r.maxLen := by
  unfold EndpointRegistry.apply
  simp only
  split <;> rfl

theorem Alike.apply (h : r.Alike r') (cmd : EndpointCommand) :
    (r.apply cmd).1.Alike (r'.apply cmd).1 ∧ (r.apply cmd).2 = (r'.apply cmd).2 := by
  unfold EndpointRegistry.apply
  rw [← h.maxLen, ← h.current cmd.validator]
  simp only
  cases proposed r.maxLen (r.current cmd.validator) cmd with
  | error e => exact ⟨h.put _ _, rfl⟩
  | ok next => exact ⟨h.put _ _, rfl⟩

/-- A command that fails changes nothing that can be looked up. -/
theorem apply_of_error {cmd : EndpointCommand} {e : EndpointApplyError}
    (h : (r.apply cmd).2 = .error e) : (r.apply cmd).1.Alike r := by
  unfold EndpointRegistry.apply at h ⊢
  simp only at h ⊢
  cases hp : proposed r.maxLen (r.current cmd.validator) cmd with
  | ok next =>
    rw [hp] at h
    cases h
  | error e' =>
    refine ⟨fun v => ?_, rfl⟩
    simp only
    rw [current_put]
    split_ifs with hv
    · rw [hv]
    · rfl

end

end EndpointRegistry

end Boule
