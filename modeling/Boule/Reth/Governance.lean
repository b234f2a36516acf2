import Boule.Lib.Run
import Boule.Reth.Registry
import Mathlib.Algebra.Order.BigOperators.Group.List
import Mathlib.Algebra.Order.Ring.Nat
import Mathlib.Logic.Equiv.List

/-! The approval tallies of `Governance.sol` and `Param.sol`: what an approval is counted for, and
when the command that is emitted is the one that was signed, by enough weight. -/
namespace Boule

/-- `keccak256` of a command and of the ABI encoding of 32-byte words, and the pairing check
of a signature over a digest. -/
structure EvmPrimitives where
  keccak256 : Bytes → Bytes32
  keccakWords : List Bytes32 → Bytes32
  blsVerify : Bytes → Bytes32 → Bytes → Bool
  chainId : ℕ

structure EvmPrimitives.CollisionFree (E : EvmPrimitives) : Prop where
  command : Function.Injective E.keccak256
  words : Function.Injective E.keccakWords

/-- The two contracts that tally approvals. They run the same code. -/
inductive ApprovalContract where
  | governance
  | param
  deriving DecidableEq

namespace ApprovalContract

/-- `AUTH_DOMAIN` -/
def authDomain : ApprovalContract → Bytes32
  | governance => 0x1c2299be361b40a53153988f6f3db65cee902f43a7d64d948abe0a4eaa156fe9
  | param => 0xfa566b51e8b3f0ea73bb6bd0a56040634697f7ad06bdedc3e670759fbf84c6cd

def address : ApprovalContract → Address
  | governance => 0xb14
  | param => 0xb11

def approveDigest (E : EvmPrimitives) (c : ApprovalContract) (proposalId : Bytes32)
    (validator : ValidatorId) : Bytes32 :=
  E.keccakWords [c.authDomain, E.chainId, c.address, proposalId, validator]

/-- A signature over the digest of a command is over that of no other. -/
theorem approveDigest_inj {E : EvmPrimitives} (hE : E.CollisionFree) {c c' : ApprovalContract}
    {id id' : Bytes32} {v v' : ValidatorId}
    (h : c.approveDigest E id v = c'.approveDigest E id' v') : id = id' ∧ v = v' := by
  have hwords := hE.words h
  simp only [List.cons.injEq] at hwords
  exact ⟨hwords.2.2.2.1, hwords.2.2.2.2.1⟩

end ApprovalContract

/-- `Proposal` of the contracts; `approved` is `emitted` in `Param.sol`. -/
structure ProposalTally where
  weight : ℕ
  approved : Bool
  deriving DecidableEq

structure ApprovalTally where
  proposals : Table Bytes32 ProposalTally
  voted : Table (Bytes32 × ValidatorId) Bool
  deriving DecidableEq

inductive ApproveError where
  | notSeated
  | noRegistryKey
  | badSignature
  | arithmetic
  deriving DecidableEq

namespace ApprovalTally

def empty : ApprovalTally := ⟨∅, ∅⟩

def proposal (t : ApprovalTally) (id : Bytes32) : ProposalTally :=
  (t.proposals.get? id).getD ⟨0, false⟩

def hasVoted (t : ApprovalTally) (id : Bytes32) (validator : ValidatorId) : Bool :=
  (t.voted.get? (id, validator)).getD false

/-- `weight * 3 > total * 2` -/
def isSupermajority (weight total : ℕ) : Bool := total * 2 < weight * 3

/-- `approve`: `none` for a call that is ignored, else the tally and whether it emits. -/
def approve (E : EvmPrimitives) (c : ApprovalContract) (r : Registry) (t : ApprovalTally)
    (proposalId : Bytes32) (validator : ValidatorId) (blsSig : Bytes) :
    Except ApproveError (Option (ApprovalTally × Bool)) := do
  let vWeight := r.weightOf validator
  require (0 < vWeight) .notSeated
  let p := t.proposal proposalId
  if p.approved || t.hasVoted proposalId validator then return none
  let pk := r.keyAt validator r.settledView
  require (pk.length = 128) .noRegistryKey
  require (E.blsVerify pk (c.approveDigest E proposalId validator) blsSig) .badSignature
  let weight ← addOrRevert .arithmetic p.weight vWeight
  let approved := isSupermajority weight r.totalWeight
  return some (⟨t.proposals.insert proposalId ⟨weight, approved⟩,
    t.voted.insert (proposalId, validator) true⟩, approved)

end ApprovalTally

/-- A signature that was counted, with the key it was checked against. -/
structure Approval where
  contract : ApprovalContract
  id : Bytes32
  validator : ValidatorId
  key : Bytes
  sig : Bytes
  deriving DecidableEq

/-- An `Approved` event, or a `ParamSubmitted` one with the id of its tally. -/
structure Enacted where
  contract : ApprovalContract
  id : Bytes32
  command : Bytes
  deriving DecidableEq

/-- The registry and the two tallies. What has been counted and emitted is on record. -/
structure Evm where
  registry : Registry
  governance : ApprovalTally
  param : ApprovalTally
  approvals : List Approval
  enacted : List Enacted
  deriving DecidableEq

inductive EvmCall where
  | approve (contract : ApprovalContract) (proposalId : Bytes32) (command : Bytes)
    (validator : ValidatorId) (blsSig : Bytes)
  | recordKey (caller : Address) (validator : ValidatorId) (vEff : ℕ) (key : Bytes)
  | recordWeight (caller : Address) (validator : ValidatorId) (newWeight : ℕ)
  | recordSettled (caller : Address) (viewNum : ℕ)

namespace Evm

/-- No approval has been counted yet. -/
def genesis (r : Registry) : Evm := ⟨r, .empty, .empty, [], []⟩

def tally (s : Evm) : ApprovalContract → ApprovalTally
  | .governance => s.governance
  | .param => s.param

def setTally (s : Evm) (t : ApprovalTally) : ApprovalContract → Evm
  | .governance => { s with governance := t }
  | .param => { s with param := t }

/-- A call that reverts changes nothing. -/
def setRegistry (s : Evm) (r : Except RegistryError Registry) : Evm :=
  match r with
  | .error _ => s
  | .ok r => { s with registry := r }

def step (E : EvmPrimitives) (s : Evm) : EvmCall → Evm
  | .approve c id command validator sig =>
    match (s.tally c).approve E c s.registry id validator sig with
    | .error _ => s
    | .ok none => s
    | .ok (some (t, emitted)) =>
      let key := s.registry.keyAt validator s.registry.settledView
      { s.setTally t c with
        approvals := s.approvals ++ [⟨c, id, validator, key, sig⟩]
        enacted := if emitted then s.enacted ++ [⟨c, id, command⟩] else s.enacted }
  | .recordKey caller validator vEff key =>
    s.setRegistry (s.registry.recordKey caller validator vEff key)
  | .recordWeight caller validator newWeight =>
    s.setRegistry (s.registry.recordWeight caller validator newWeight)
  | .recordSettled caller viewNum => s.setRegistry (s.registry.recordSettled caller viewNum)

/-- The approvals that a tally has counted. -/
def counted (s : Evm) (c : ApprovalContract) (id : Bytes32) : List Approval :=
  s.approvals.filter fun a => a.contract = c ∧ a.id = id

/-- What the validators of the approvals weigh now. -/
def weighed (s : Evm) (c : ApprovalContract) (id : Bytes32) : ℕ :=
  ((s.counted c id).map fun a => s.registry.weightOf a.validator).sum

/-- The tally of the id is open and would cross two thirds with this validator. -/
def crosses (s : Evm) (c : ApprovalContract) (id : Bytes32) (validator : ValidatorId) : Bool :=
  let p := (s.tally c).proposal id
  !p.approved &&
    ApprovalTally.isSupermajority (p.weight + s.registry.weightOf validator) s.registry.totalWeight

/-- The call that crosses names the command whose hash is the id, and no validator that an open
tally has counted loses weight. -/
def Binds (E : EvmPrimitives) (s : Evm) : EvmCall → Prop
  | .approve c id command validator _ =>
    s.crosses c id validator = true → E.keccak256 command = id
  | .recordWeight caller validator newWeight => caller = systemAddress →
    ∀ a ∈ s.approvals, a.validator = validator →
      ((s.tally a.contract).proposal a.id).approved = false →
      s.registry.weightOf validator ≤ newWeight
  | _ => True

instance (E : EvmPrimitives) (s : Evm) : DecidablePred (s.Binds E)
  | .approve c id command validator _ =>
    inferInstanceAs (Decidable (s.crosses c id validator = true → E.keccak256 command = id))
  | .recordWeight .. => inferInstanceAs (Decidable
      (_ = systemAddress → ∀ a ∈ s.approvals, _ → _ = false → _ ≤ _))
  | .recordKey _ _ _ _ | .recordSettled _ _ => inferInstanceAs (Decidable True)

/-- The holder of the key signed for this command, and the signature is for no other. -/
structure SignedExactly (E : EvmPrimitives) (signed : Bytes → Bytes32 → Prop) (a : Approval)
    (command : Bytes) : Prop where
  signed : signed a.key (a.contract.approveDigest E (E.keccak256 command) a.validator)
  only : ∀ command', a.contract.approveDigest E (E.keccak256 command') a.validator =
    a.contract.approveDigest E a.id a.validator → command' = command

/-- The event stands on signatures for its command by distinct validators who now have more than
two thirds of the weight. -/
structure Backed (E : EvmPrimitives) (signed : Bytes → Bytes32 → Prop) (s : Evm) (e : Enacted) :
    Prop where
  id : e.id = E.keccak256 e.command
  signed : ∀ a ∈ s.counted e.contract e.id, SignedExactly E signed a e.command
  distinct : ((s.counted e.contract e.id).map Approval.validator).Nodup
  weight : s.registry.totalWeight * 2 < s.weighed e.contract e.id * 3

end Evm

/-! ### One call -/

namespace ApprovalTally
variable {E : EvmPrimitives} {c : ApprovalContract} {r : Registry} {t t' : ApprovalTally}
  {id : Bytes32}
  {validator : ValidatorId} {sig : Bytes} {emitted : Bool}

/-- An approval that is counted. -/
structure Counts (E : EvmPrimitives) (c : ApprovalContract) (r : Registry) (t : ApprovalTally)
    (id : Bytes32) (validator : ValidatorId) (sig : Bytes) (t' : ApprovalTally) (emitted : Bool) :
    Prop where
  pending : (t.proposal id).approved = false
  fresh : t.hasVoted id validator = false
  verified : E.blsVerify (r.keyAt validator r.settledView) (c.approveDigest E id validator) sig =
    true
  crossed : emitted =
    isSupermajority ((t.proposal id).weight + r.weightOf validator) r.totalWeight
  tally : t' = ⟨t.proposals.insert id ⟨(t.proposal id).weight + r.weightOf validator, emitted⟩,
    t.voted.insert (id, validator) true⟩

theorem counts_of_approve (h : t.approve E c r id validator sig = .ok (some (t', emitted))) :
    Counts E c r t id validator sig t' emitted := by
  unfold approve at h
  obtain ⟨_, -, h⟩ := bind_eq_ok.mp h
  cases hp : (t.proposal id).approved with
  | true => simp [hp, pure, Except.pure] at h
  | false =>
    cases hv : t.hasVoted id validator with
    | true => simp [hp, hv, pure, Except.pure] at h
    | false =>
      simp only [hp, hv, Bool.or_self, Bool.false_eq_true, if_false] at h
      obtain ⟨_, -, h⟩ := bind_eq_ok.mp h
      obtain ⟨_, hverify, h⟩ := bind_eq_ok.mp h
      obtain ⟨weight, hweight, h⟩ := bind_eq_ok.mp h
      obtain ⟨rfl, -⟩ := checkedAddU64_eq_some.mp (okOr_eq_ok.mp hweight)
      obtain ⟨rfl, rfl⟩ := Prod.mk.inj (Option.some.inj (Except.ok.inj h))
      exact ⟨hp, hv, require_eq_ok.mp hverify, rfl, rfl⟩

theorem Counts.proposal (h : Counts E c r t id validator sig t' emitted) (id' : Bytes32) :
    t'.proposal id' = if id' = id then ⟨(t.proposal id).weight + r.weightOf validator, emitted⟩
      else t.proposal id' := by
  rw [h.tally]
  unfold ApprovalTally.proposal
  simp only
  rw [Table.get?_insert]
  split_ifs <;> rfl

theorem Counts.hasVoted (h : Counts E c r t id validator sig t' emitted) {id' : Bytes32}
    {v : ValidatorId} (hv : t'.hasVoted id' v = false) :
    t.hasVoted id' v = false ∧ (id', v) ≠ (id, validator) := by
  rw [h.tally] at hv
  unfold ApprovalTally.hasVoted at hv ⊢
  simp only at hv
  rw [Table.get?_insert] at hv
  split_ifs at hv with he
  · cases hv
  · exact ⟨hv, he⟩

end ApprovalTally

namespace Evm
variable {E : EvmPrimitives} {s : Evm} {call : EvmCall}

@[simp] theorem tally_setTally (s : Evm) (t : ApprovalTally) (c c' : ApprovalContract) :
    (s.setTally t c).tally c' = if c' = c then t else s.tally c' := by
  cases c <;> cases c' <;> rfl

@[simp] theorem registry_setTally (s : Evm) (t : ApprovalTally) (c : ApprovalContract) :
    (s.setTally t c).registry = s.registry := by
  cases c <;> rfl

/-- What a call can do. -/
inductive Steps (E : EvmPrimitives) (s : Evm) : EvmCall → Evm → Prop
  | none (call : EvmCall) : Steps E s call s
  | registry (call : EvmCall) (r : Registry) (h : ∀ v, r.weightOf v = s.registry.weightOf v) :
    Steps E s call { s with registry := r }
  | weight (validator : ValidatorId) (newWeight : ℕ) (r : Registry)
    (h : ∀ v, r.weightOf v = if v = validator then newWeight else s.registry.weightOf v) :
    Steps E s (.recordWeight systemAddress validator newWeight) { s with registry := r }
  | counted (c : ApprovalContract) (id : Bytes32) (command : Bytes) (validator : ValidatorId)
    (sig : Bytes) (t : ApprovalTally) (emitted : Bool)
    (h : ApprovalTally.Counts E c s.registry (s.tally c) id validator sig t emitted) :
    Steps E s (.approve c id command validator sig)
      { s.setTally t c with
        approvals := s.approvals ++
          [⟨c, id, validator, s.registry.keyAt validator s.registry.settledView, sig⟩]
        enacted := if emitted then s.enacted ++ [⟨c, id, command⟩] else s.enacted }

theorem steps_step (E : EvmPrimitives) (s : Evm) (call : EvmCall) :
    Steps E s call (s.step E call) := by
  cases call with
  | approve c id command validator sig =>
    simp only [step]
    cases h : (s.tally c).approve E c s.registry id validator sig with
    | error e => exact .none _
    | ok outcome =>
      cases outcome with
      | none => exact .none _
      | some outcome =>
        exact .counted c id command validator sig _ _ (ApprovalTally.counts_of_approve h)
  | recordKey caller validator vEff key =>
    simp only [step, setRegistry]
    cases h : s.registry.recordKey caller validator vEff key with
    | error e => exact .none _
    | ok r => exact .registry _ r (Registry.weightOf_recordKey h)
  | recordWeight caller validator newWeight =>
    simp only [step, setRegistry]
    cases h : s.registry.recordWeight caller validator newWeight with
    | error e => exact .none _
    | ok r =>
      have hweight := Registry.weightOf_recordWeight h
      obtain rfl := (hweight validator).1
      exact .weight validator newWeight r fun v => (hweight v).2
  | recordSettled caller viewNum =>
    simp only [step, setRegistry]
    cases h : s.registry.recordSettled caller viewNum with
    | error e => exact .none _
    | ok r => exact .registry _ r (Registry.weightOf_recordSettled h)

/-! ### What the tallies stand on -/

/-- The tallies agree with the approvals on record. -/
structure Sound (E : EvmPrimitives) (s : Evm) : Prop where
  verified : ∀ a ∈ s.approvals,
    E.blsVerify a.key (a.contract.approveDigest E a.id a.validator) a.sig = true
  voted : ∀ c id v, (s.tally c).hasVoted id v = false →
    v ∉ (s.counted c id).map Approval.validator
  distinct : ∀ c id, ((s.counted c id).map Approval.validator).Nodup
  weight : ∀ c id, ((s.tally c).proposal id).approved = false →
    ((s.tally c).proposal id).weight ≤ s.weighed c id
  enacted : ∀ e ∈ s.enacted, ((s.tally e.contract).proposal e.id).approved = true
  once : (s.enacted.map fun e => (e.contract, e.id)).Nodup

theorem sound_genesis (E : EvmPrimitives) (r : Registry) : Sound E (genesis r) := by
  constructor
  · simp [genesis]
  · simp [genesis, counted]
  · simp [genesis, counted]
  · intro c id _
    cases c <;> simp [genesis, tally, ApprovalTally.empty, ApprovalTally.proposal]
  · simp [genesis]
  · simp [genesis]

/-- Weights that do not fall for the approvals of open tallies keep the tallies sound. -/
theorem Sound.of_weights (hs : Sound E s) {r : Registry}
    (h : ∀ a ∈ s.approvals, ((s.tally a.contract).proposal a.id).approved = false →
      s.registry.weightOf a.validator ≤ r.weightOf a.validator) :
    Sound E { s with registry := r } := by
  refine ⟨hs.verified, hs.voted, hs.distinct, ?_, hs.enacted, hs.once⟩
  intro c id hopen
  refine (hs.weight c id hopen).trans ?_
  apply List.sum_le_sum
  intro a ha
  obtain ⟨hmem, hac⟩ := List.mem_filter.mp ha
  obtain ⟨rfl, rfl⟩ := of_decide_eq_true hac
  exact h a hmem hopen

theorem counted_append {s' : Evm} {a : Approval} (h : s'.approvals = s.approvals ++ [a])
    (c : ApprovalContract) (id : Bytes32) :
    s'.counted c id = s.counted c id ++ if a.contract = c ∧ a.id = id then [a] else [] := by
  unfold counted
  rw [h, List.filter_append, List.filter_singleton]
  simp

/-- Each approval adds the weight of its validator. -/
theorem weighed_counted (s' : Evm) {a : Approval} (hregistry : s'.registry = s.registry)
    (h : s'.approvals = s.approvals ++ [a]) (c : ApprovalContract) (id : Bytes32) :
    s'.weighed c id = s.weighed c id +
      if a.contract = c ∧ a.id = id then s.registry.weightOf a.validator else 0 := by
  unfold weighed
  rw [counted_append h, hregistry, List.map_append, List.sum_append]
  split_ifs <;> simp

/-- The state after an approval that is counted. -/
structure Takes (E : EvmPrimitives) (s s' : Evm) (c : ApprovalContract) (id : Bytes32)
    (validator : ValidatorId) (sig : Bytes) (command : Bytes) (t : ApprovalTally)
    (emitted : Bool) : Prop where
  counts : ApprovalTally.Counts E c s.registry (s.tally c) id validator sig t emitted
  tally : ∀ c', s'.tally c' = if c' = c then t else s.tally c'
  registry : s'.registry = s.registry
  approvals : s'.approvals = s.approvals ++
    [⟨c, id, validator, s.registry.keyAt validator s.registry.settledView, sig⟩]
  enacted : s'.enacted = if emitted then s.enacted ++ [⟨c, id, command⟩] else s.enacted

section
variable {s' : Evm} {c : ApprovalContract} {id : Bytes32} {validator : ValidatorId}
  {sig command : Bytes} {t : ApprovalTally} {emitted : Bool}

theorem takes_setTally
    (h : ApprovalTally.Counts E c s.registry (s.tally c) id validator sig t emitted)
    (command : Bytes) :
    Takes E s { s.setTally t c with
      approvals := s.approvals ++
        [⟨c, id, validator, s.registry.keyAt validator s.registry.settledView, sig⟩]
      enacted := if emitted then s.enacted ++ [⟨c, id, command⟩] else s.enacted }
      c id validator sig command t emitted where
  counts := h
  tally := fun c' => tally_setTally s t c c'
  registry := registry_setTally s t c
  approvals := rfl
  enacted := rfl

theorem Takes.proposal (h : Takes E s s' c id validator sig command t emitted)
    (c' : ApprovalContract) (id' : Bytes32) : (s'.tally c').proposal id' =
      if c' = c ∧ id' = id then
        ⟨((s.tally c).proposal id).weight + s.registry.weightOf validator, emitted⟩
      else (s.tally c').proposal id' := by
  rw [h.tally]
  by_cases hc : c' = c
  · subst hc
    simp [h.counts.proposal]
  · simp [hc]

theorem Sound.verified_takes (hs : Sound E s)
    (h : Takes E s s' c id validator sig command t emitted) : ∀ a ∈ s'.approvals,
      E.blsVerify a.key (a.contract.approveDigest E a.id a.validator) a.sig = true := by
  intro a ha
  rw [h.approvals, List.mem_append, List.mem_singleton] at ha
  rcases ha with ha | rfl
  · exact hs.verified a ha
  · exact h.counts.verified

/-- Who has not voted is not counted. -/
theorem Sound.voted_takes (hs : Sound E s) (h : Takes E s s' c id validator sig command t emitted)
    (c' : ApprovalContract) (id' : Bytes32) (v : ValidatorId)
    (hv : (s'.tally c').hasVoted id' v = false) :
    v ∉ (s'.counted c' id').map Approval.validator := by
  rw [counted_append h.approvals]
  rw [h.tally] at hv
  by_cases hid : c = c' ∧ id = id'
  · obtain ⟨rfl, rfl⟩ := hid
    rw [if_pos rfl] at hv
    obtain ⟨hold, hne⟩ := h.counts.hasVoted hv
    have hvalidator : v ≠ validator := fun he => hne (by rw [he])
    simpa [hvalidator] using hs.voted c id v hold
  · rw [if_neg hid, List.append_nil]
    apply hs.voted
    split_ifs at hv with hc
    · subst hc
      exact (h.counts.hasVoted hv).1
    · exact hv

theorem Sound.distinct_takes (hs : Sound E s)
    (h : Takes E s s' c id validator sig command t emitted) (c' : ApprovalContract)
    (id' : Bytes32) : ((s'.counted c' id').map Approval.validator).Nodup := by
  rw [counted_append h.approvals]
  by_cases hid : c = c' ∧ id = id'
  · obtain ⟨rfl, rfl⟩ := hid
    rw [if_pos ⟨rfl, rfl⟩, List.map_append]
    have hnew := hs.voted c id validator h.counts.fresh
    exact List.nodup_append_comm.mpr (List.nodup_cons.mpr ⟨hnew, hs.distinct c id⟩)
  · rw [if_neg hid, List.append_nil]
    exact hs.distinct c' id'

/-- The weight of an open tally grows by the weight of the validator. -/
theorem Sound.weight_takes (hs : Sound E s)
    (h : Takes E s s' c id validator sig command t emitted) (c' : ApprovalContract)
    (id' : Bytes32) (hopen : ((s'.tally c').proposal id').approved = false) :
    ((s'.tally c').proposal id').weight ≤ s'.weighed c' id' := by
  have hweighed := weighed_counted _ h.registry h.approvals c' id'
  rw [h.proposal] at hopen ⊢
  rw [hweighed]
  by_cases hid : c' = c ∧ id' = id
  · obtain ⟨rfl, rfl⟩ := hid
    have hold := hs.weight c' id' h.counts.pending
    rw [if_pos ⟨rfl, rfl⟩, if_pos ⟨rfl, rfl⟩]
    simp only
    omega
  · rw [if_neg hid] at hopen ⊢
    rw [if_neg fun he => hid ⟨he.1.symm, he.2.symm⟩]
    exact hs.weight c' id' hopen

/-- An open tally has emitted no event. -/
theorem Sound.not_enacted (hs : Sound E s)
    (h : Takes E s s' c id validator sig command t emitted) {e : Enacted} (he : e ∈ s.enacted) :
    ¬ (e.contract = c ∧ e.id = id) := by
  rintro ⟨hc, hid⟩
  have hpast := hs.enacted e he
  rw [hc, hid, h.counts.pending] at hpast
  cases hpast

theorem Sound.enacted_takes (hs : Sound E s)
    (h : Takes E s s' c id validator sig command t emitted) (e : Enacted) (he : e ∈ s'.enacted) :
    ((s'.tally e.contract).proposal e.id).approved = true := by
  rw [h.enacted] at he
  rw [h.proposal]
  cases emitted with
  | false =>
    have hold : e ∈ s.enacted := by simpa using he
    rw [if_neg (hs.not_enacted h hold)]
    exact hs.enacted e hold
  | true =>
    split_ifs with hid
    · rfl
    · rcases List.mem_append.mp he with hold | hnew
      · exact hs.enacted e hold
      · obtain rfl := List.mem_singleton.mp hnew
        exact absurd ⟨rfl, rfl⟩ hid

theorem Sound.once_takes (hs : Sound E s)
    (h : Takes E s s' c id validator sig command t emitted) :
    (s'.enacted.map fun e => (e.contract, e.id)).Nodup := by
  rw [h.enacted]
  split_ifs
  · rw [List.map_append]
    refine List.nodup_append_comm.mpr (List.nodup_cons.mpr ⟨?_, hs.once⟩)
    intro hmem
    obtain ⟨e, he, hkey⟩ := List.mem_map.mp hmem
    exact hs.not_enacted h he (Prod.mk.inj hkey)
  · exact hs.once

/-- An approval that is counted keeps the tallies sound. -/
theorem Sound.takes (hs : Sound E s) (h : Takes E s s' c id validator sig command t emitted) :
    Sound E s' where
  verified := hs.verified_takes h
  voted := hs.voted_takes h
  distinct := hs.distinct_takes h
  weight := hs.weight_takes h
  enacted := hs.enacted_takes h
  once := hs.once_takes h

end

theorem Sound.step (hs : Sound E s) (hb : s.Binds E call) : Sound E (s.step E call) := by
  have hsteps := steps_step E s call
  generalize hs' : s.step E call = s' at hsteps
  cases hsteps with
  | none => exact hs
  | registry _ r h => exact hs.of_weights fun a _ _ => (h a.validator).ge
  | weight validator newWeight r h =>
    apply hs.of_weights
    intro a ha hopen
    rw [h]
    split_ifs with hv
    · rw [hv]
      exact hb rfl a ha hv hopen
    · exact le_rfl
  | counted c id command validator sig t emitted h =>
    exact hs.takes (takes_setTally h command)

/-- The event that a call emits is backed. -/
theorem Sound.backed (hs : Sound E s) (hE : E.CollisionFree)
    {signed : Bytes → Bytes32 → Prop}
    (hunforgeable : ∀ key digest sig, E.blsVerify key digest sig = true → signed key digest)
    (hb : s.Binds E call) : ∀ e ∈ (s.step E call).enacted.drop s.enacted.length,
      Backed E signed (s.step E call) e := by
  have hsound := hs.step hb
  have hsteps := steps_step E s call
  generalize s.step E call = s' at hsteps hsound
  intro e he
  cases hsteps with
  | none => simp at he
  | registry r h => simp at he
  | weight validator newWeight r h => simp at he
  | counted c id command validator sig t emitted h =>
    cases emitted with
    | false => simp at he
    | true =>
      obtain rfl : e = ⟨c, id, command⟩ := by simpa using he
      have hcrossed := h.crossed.symm
      have hcross : s.crosses c id validator = true := by
        unfold crosses
        simp only [h.pending, hcrossed, Bool.not_false, Bool.and_self]
      have hid : E.keccak256 command = id := hb hcross
      refine ⟨hid.symm, ?_, hsound.distinct c id, ?_⟩
      · intro a ha
        obtain ⟨hmem, hac⟩ := List.mem_filter.mp ha
        obtain ⟨hc, ha⟩ := of_decide_eq_true hac
        constructor
        · have hverified := hsound.verified a hmem
          rw [ha, ← hid] at hverified
          exact hunforgeable _ _ _ hverified
        · intro command' hdigest
          rw [ha, ← hid] at hdigest
          exact hE.command (ApprovalContract.approveDigest_inj hE hdigest).1
      · have hold := hs.weight c id h.pending
        have hweight := of_decide_eq_true hcrossed
        have hnow := weighed_counted (s := s) { s.setTally t c with
            approvals := s.approvals ++
              [⟨c, id, validator, s.registry.keyAt validator s.registry.settledView, sig⟩]
            enacted := s.enacted ++ [⟨c, id, command⟩] } (registry_setTally s t c) rfl c id
        simp only [and_self, if_true] at hnow ⊢
        rw [hnow]
        simp only [registry_setTally]
        omega

/-- In a run whose calls meet the condition every event is backed when it is emitted, and an id
has at most one. -/
theorem enacted_backed (hE : E.CollisionFree) {signed : Bytes → Bytes32 → Prop}
    (hunforgeable : ∀ key digest sig, E.blsVerify key digest sig = true → signed key digest)
    {r : Registry} {calls : List EvmCall} (h : Along (step E) (Binds E) (genesis r) calls) :
    Along (step E) (fun s call => ∀ e ∈ (s.step E call).enacted.drop s.enacted.length,
        Backed E signed (s.step E call) e) (genesis r) calls ∧
      ((run (step E) (genesis r) calls).enacted.map fun e => (e.contract, e.id)).Nodup := by
  constructor
  · exact h.imp_of_invariant (fun s call hb hs => ⟨hs.step hb, hs.backed hE hunforgeable hb⟩)
      (sound_genesis E r)
  · exact (h.invariant (fun s call hb (hs : Sound E s) => hs.step hb) (sound_genesis E r)).once

end Evm

/-! ### A small instance -/

namespace Sample

/-- Hashes are numbers of lists, and a signature is the first byte of its key. -/
def evm : EvmPrimitives where
  keccak256 := fun bytes => Encodable.encode (bytes.map UInt8.toNat)
  keccakWords := Encodable.encode
  blsVerify := fun key _ sig => sig = key.take 1
  chainId := 1

theorem collisionFree_evm : evm.CollisionFree where
  command := Encodable.encode_injective.comp
    (List.map_injective_iff.mpr fun _ _ h => UInt8.toNat_inj.mp h)
  words := Encodable.encode_injective

/-- Four validators of weight 3. -/
def seated : Registry where
  history := [1, 2, 3, 4].foldl
    (fun t v => t.insert v [⟨0, List.replicate 128 (UInt8.ofNat v)⟩]) ∅
  weight := [1, 2, 3, 4].foldl (fun t v => t.insert v 3) ∅
  totalWeight := 12
  settledView := 0

def changeA : Bytes := [1]

def changeB : Bytes := [2]

/-- A signature of the validator for the first command, sent along with `command`. -/
def approving (validator : ValidatorId) (command : Bytes) : EvmCall :=
  .approve .governance (evm.keccak256 changeA) command validator [UInt8.ofNat validator]

def evmAfter (calls : List EvmCall) : Evm := run (Evm.step evm) (.genesis seated) calls

def approved : List EvmCall :=
  [approving 1 changeA, approving 2 changeA, .recordWeight systemAddress 1 4,
    approving 3 changeA, approving 4 changeB]

/-- Three validators enact the command they have signed, and the fourth comes too late. -/
theorem approved_backed :
    (evmAfter approved).enacted = [⟨.governance, evm.keccak256 changeA, changeA⟩] ∧
      Along (Evm.step evm) (fun s call =>
        ∀ e ∈ (s.step evm call).enacted.drop s.enacted.length,
          Evm.Backed evm (fun key digest => ∃ sig, evm.blsVerify key digest sig = true)
            (s.step evm call) e) (.genesis seated) approved := by
  refine ⟨by decide +kernel, ?_⟩
  have hbinds : Along (Evm.step evm) (Evm.Binds evm) (.genesis seated) approved := by
    decide +kernel
  exact (Evm.enacted_backed collisionFree_evm (fun _ _ sig h => ⟨sig, h⟩) hbinds).1

/-- Three signatures for one command enact another one, and three validators enact a command after
two of them have lost most of their weight. -/
theorem enacted_unbacked :
    (∃ e ∈ (evmAfter [approving 1 changeA, approving 2 changeA, approving 3 changeB]).enacted,
      e.id = evm.keccak256 changeA ∧ e.command = changeB ∧
        evm.keccak256 e.command ≠ e.id) ∧
    ∃ calls, ∃ e ∈ (evmAfter calls).enacted, e.command = changeA ∧
      (evmAfter calls).weighed e.contract e.id * 3 ≤ (evmAfter calls).registry.totalWeight * 2 :=
  by
  refine ⟨by decide +kernel, [approving 1 changeA, approving 2 changeA,
    .recordWeight systemAddress 1 1, .recordWeight systemAddress 2 1, approving 3 changeA], ?_⟩
  decide +kernel

end Sample

end Boule
