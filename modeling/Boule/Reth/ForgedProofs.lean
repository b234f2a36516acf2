import Boule.Reth.BlsVerify
import Boule.Reth.Governance
import Boule.Reth.RegistryRuns
import Mathlib.Data.ZMod.Basic

/-! What the contracts that check BLS signatures accept: `Slashing.sol` for one validator, and the
approvals of `Governance.sol` and `Param.sol` for all of them. -/
namespace Boule
open Framing BlsVerify

/-! ### Equivocations -/

/-- The event `Slashed`. -/
structure SlashedEvent where
  validator : ValidatorId
  view : UInt64
  blockA : ByteArray32
  blockB : ByteArray32
  deriving DecidableEq

inductive SlashingRevert
  | chainId
  | sameBlock
  | notSettled
  | noRegistryKey
  | sigA
  | sigB
  | hashing

/-- The arguments of `submitEquivocation`. -/
structure EquivocationCall extends SlashedEvent where
  chainId : Bytes
  sigA : Bytes
  sigB : Bytes

section
variable {G₁ G₂ T : Type} [AddCommGroup G₁] [AddCommGroup G₂] [AddCommGroup T]
variable (C : BlsCurve G₁ G₂ T)

def submitEquivocation [DecidableEq T] (r : Registry) (call : EquivocationCall) :
    Except SlashingRevert SlashedEvent := do
  require (call.chainId.length = 32) .chainId
  require (call.blockA ≠ call.blockB) .sameBlock
  require (call.view.toNat ≤ r.settledView) .notSettled
  let key := r.keyAt call.validator call.view.toNat
  require (key.length = 128) .noRegistryKey
  let verifiedA ← okOr (verify C key
    (Slashing.votePreimage call.chainId call.view call.blockA) call.sigA) .hashing
  require verifiedA .sigA
  let verifiedB ← okOr (verify C key
    (Slashing.votePreimage call.chainId call.view call.blockB) call.sigB) .hashing
  require verifiedB .sigB
  return call.toSlashedEvent

namespace EquivocationCall

/-- What the contract compares before it looks at a signature. -/
structure WellFormed (r : Registry) (call : EquivocationCall) : Prop where
  chainId : call.chainId.length = 32
  distinct : call.blockA ≠ call.blockB
  settled : call.view.toNat ≤ r.settledView
  key : (r.keyAt call.validator call.view.toNat).length = 128

/-- The same call, with proofs that are made from a point. -/
def forged (P : G₁) (call : EquivocationCall) : EquivocationCall :=
  { call with
    sigA := forge C P (Slashing.votePreimage call.chainId call.view call.blockA)
    sigB := forge C P (Slashing.votePreimage call.chainId call.view call.blockB) }

end EquivocationCall

theorem submitEquivocation_ok [DecidableEq T] {r : Registry} {call : EquivocationCall}
    {event : SlashedEvent} : submitEquivocation C r call = .ok event ↔
      event = call.toSlashedEvent ∧ call.WellFormed r ∧
        Paired C (r.keyAt call.validator call.view.toNat)
          (Slashing.votePreimage call.chainId call.view call.blockA) call.sigA ∧
        Paired C (r.keyAt call.validator call.view.toNat)
          (Slashing.votePreimage call.chainId call.view call.blockB) call.sigB := by
  constructor
  · intro h
    obtain ⟨_, hchain, h⟩ := bind_eq_ok.mp h
    obtain ⟨_, hdistinct, h⟩ := bind_eq_ok.mp h
    obtain ⟨_, hsettled, h⟩ := bind_eq_ok.mp h
    obtain ⟨_, hkey, h⟩ := bind_eq_ok.mp h
    obtain ⟨verifiedA, hverifyA, h⟩ := bind_eq_ok.mp h
    obtain ⟨_, hA, h⟩ := bind_eq_ok.mp h
    obtain ⟨verifiedB, hverifyB, h⟩ := bind_eq_ok.mp h
    obtain ⟨_, hB, h⟩ := bind_eq_ok.mp h
    have hlen := of_decide_eq_true (require_eq_ok.mp hkey)
    have hsigA := okOr_eq_ok.mp hverifyA
    have hsigB := okOr_eq_ok.mp hverifyB
    rw [require_eq_ok.mp hA] at hsigA
    rw [require_eq_ok.mp hB] at hsigB
    exact ⟨(Except.ok.inj h).symm, ⟨of_decide_eq_true (require_eq_ok.mp hchain),
      of_decide_eq_true (require_eq_ok.mp hdistinct),
      of_decide_eq_true (require_eq_ok.mp hsettled), hlen⟩,
      (verify_eq_true C hlen _ _).mp hsigA, (verify_eq_true C hlen _ _).mp hsigB⟩
  · intro ⟨hevent, hform, hA, hB⟩
    have hsigA := (verify_eq_true C hform.key _ _).mpr hA
    have hsigB := (verify_eq_true C hform.key _ _).mpr hB
    refine bind_eq_ok.mpr ⟨(), require_eq_ok.mpr (decide_eq_true hform.chainId),
      bind_eq_ok.mpr ⟨(), require_eq_ok.mpr (decide_eq_true hform.distinct),
      bind_eq_ok.mpr ⟨(), require_eq_ok.mpr (decide_eq_true hform.settled),
      bind_eq_ok.mpr ⟨(), require_eq_ok.mpr (decide_eq_true hform.key),
      bind_eq_ok.mpr ⟨true, okOr_eq_ok.mpr hsigA, bind_eq_ok.mpr ⟨(), require_eq_ok.mpr rfl,
      bind_eq_ok.mpr ⟨true, okOr_eq_ok.mpr hsigB, bind_eq_ok.mpr ⟨(), require_eq_ok.mpr rfl,
      ?_⟩⟩⟩⟩⟩⟩⟩⟩
    rw [hevent]
    rfl

/-- A validator is slashed exactly if both pairing equations hold over all pairs that the bytes of
the proofs make. With 256 bytes each these are signatures of two votes; but proofs of any validator
with a key can be made from that key, with no signature. -/
theorem equivocations_slashed [DecidableEq T] (r : Registry) (call : EquivocationCall) :
    (∀ event, submitEquivocation C r call = .ok event ↔
      event = call.toSlashedEvent ∧ call.WellFormed r ∧
        Paired C (r.keyAt call.validator call.view.toNat)
          (Slashing.votePreimage call.chainId call.view call.blockA) call.sigA ∧
        Paired C (r.keyAt call.validator call.view.toNat)
          (Slashing.votePreimage call.chainId call.view call.blockB) call.sigB) ∧
      (call.sigA.length = 256 → call.sigB.length = 256 →
        ∀ event, submitEquivocation C r call = .ok event →
          SignedBy C (r.keyAt call.validator call.view.toNat)
            (Slashing.votePreimage call.chainId call.view call.blockA) call.sigA ∧
          SignedBy C (r.keyAt call.validator call.view.toNat)
            (Slashing.votePreimage call.chainId call.view call.blockB) call.sigB) ∧
      ∀ P, call.WellFormed r →
        C.codec₁.decode (r.keyAt call.validator call.view.toNat) = some P →
          submitEquivocation C r (call.forged C P) = .ok call.toSlashedEvent := by
  refine ⟨fun event => submitEquivocation_ok C, ?_, ?_⟩
  · intro hA hB event h
    obtain ⟨-, -, hpairedA, hpairedB⟩ := (submitEquivocation_ok C).mp h
    exact ⟨(paired_iff_signedBy C hA).mp hpairedA, (paired_iff_signedBy C hB).mp hpairedB⟩
  · intro P hform hP
    refine (submitEquivocation_ok C).mpr ⟨rfl, ?_, paired_forge C hP _, paired_forge C hP _⟩
    exact ⟨hform.chainId, hform.distinct, hform.settled, hform.key⟩

/-! ### Approvals -/

/-- The signature check of `BlsVerify.sol`; a digest has 32 bytes. -/
def EvmPrimitives.onCurve [DecidableEq T] (E : EvmPrimitives) : EvmPrimitives :=
  { E with blsVerify := fun key digest sig => verify C key (bigEndian 32 digest) sig = some true }

/-- The weights sum up to the total, which is a `uint64` and not zero, and whoever has weight has a
key that is a point. -/
structure Registry.Seated (r : Registry) : Prop where
  total : r.totalWeight = r.weight.sumOf fun _ w => w
  u64 : r.totalWeight < 2 ^ 64
  pos : 0 < r.totalWeight
  keys : ∀ v, 0 < r.weightOf v → (r.keyAt v r.settledView).length = 128 ∧
    ∃ P, C.codec₁.decode (r.keyAt v r.settledView) = some P

/-- Nobody has approved the proposal yet. -/
structure ApprovalTally.Fresh (t : ApprovalTally) (id : Bytes32) : Prop where
  proposal : t.proposal id = ⟨0, false⟩
  voted : ∀ v, t.hasVoted id v = false

theorem ApprovalTally.approve_of_counts {E : EvmPrimitives} {c : ApprovalContract} {r : Registry}
    {t : ApprovalTally} {id : Bytes32} {v : ValidatorId} {sig : Bytes}
    (hseated : 0 < r.weightOf v) (hpending : (t.proposal id).approved = false)
    (hfresh : t.hasVoted id v = false) (hkey : (r.keyAt v r.settledView).length = 128)
    (hverify : E.blsVerify (r.keyAt v r.settledView) (c.approveDigest E id v) sig = true)
    (hu64 : (t.proposal id).weight + r.weightOf v < 2 ^ 64) :
    t.approve E c r id v sig = .ok (some
      (⟨t.proposals.insert id ⟨(t.proposal id).weight + r.weightOf v,
          isSupermajority ((t.proposal id).weight + r.weightOf v) r.totalWeight⟩,
        t.voted.insert (id, v) true⟩,
        isSupermajority ((t.proposal id).weight + r.weightOf v) r.totalWeight)) := by
  unfold approve
  refine bind_eq_ok.mpr ⟨(), require_eq_ok.mpr (decide_eq_true hseated), ?_⟩
  simp only [hpending, hfresh, Bool.or_self, Bool.false_eq_true, if_false]
  refine bind_eq_ok.mpr ⟨(), require_eq_ok.mpr (decide_eq_true hkey), ?_⟩
  refine bind_eq_ok.mpr ⟨(), require_eq_ok.mpr hverify, ?_⟩
  refine bind_eq_ok.mpr ⟨_, okOr_eq_ok.mpr (checkedAddU64_eq_some.mpr ⟨rfl, hu64⟩), ?_⟩
  rfl

/-- Approvals of a list of validators, with proofs made from their keys. -/
def forgedApprovals (E : EvmPrimitives) (c : ApprovalContract) (r : Registry) (id : Bytes32)
    (command : Bytes) (validators : List ValidatorId) : List EvmCall :=
  validators.map fun v => .approve c id command v
    (((C.codec₁.decode (r.keyAt v r.settledView)).map fun P =>
      forge C P (bigEndian 32 (c.approveDigest E id v))).getD [])

/-- The proposal is enacted, or its tally is that of the validators so far. -/
structure Accruing (r : Registry) (c : ApprovalContract) (id : Bytes32) (done : List ValidatorId)
    (s : Evm) : Prop where
  registry : s.registry = r
  pending : ((s.tally c).proposal id).approved = false
  weight : ((s.tally c).proposal id).weight = (done.map r.weightOf).sum
  minority : (done.map r.weightOf).sum * 3 ≤ r.totalWeight * 2
  voted : ∀ v, v ∉ done → (s.tally c).hasVoted id v = false

variable {C} {r : Registry} {c : ApprovalContract} {id : Bytes32}

theorem enacted_step (E : EvmPrimitives) {s : Evm} (call : EvmCall) {e : Enacted}
    (he : e ∈ s.enacted) : e ∈ (s.step E call).enacted := by
  have hsteps := Evm.steps_step E s call
  generalize s.step E call = s' at hsteps
  cases hsteps with
  | none => exact he
  | registry r h => exact he
  | weight validator newWeight r h => exact he
  | counted c id command validator sig t emitted h =>
    simp only
    split_ifs
    · exact List.mem_append_left _ he
    · exact he

theorem enacted_run (E : EvmPrimitives) {s : Evm} (calls : List EvmCall) {e : Enacted}
    (he : e ∈ s.enacted) : e ∈ (run (Evm.step E) s calls).enacted := by
  induction calls generalizing s with
  | nil => exact he
  | cons call calls ih => exact ih (enacted_step E call he)

theorem tally_counted (s : Evm) (t : ApprovalTally) (c : ApprovalContract)
    (approvals : List Approval) (enacted : List Enacted) :
    ({ s.setTally t c with approvals := approvals, enacted := enacted } : Evm).tally c = t := by
  cases c with
  | governance => rfl
  | param => rfl

/-- A counted approval enacts the proposal, or it is one more in the tally. -/
theorem Accruing.counted {E : EvmPrimitives} {done : List ValidatorId} {s : Evm}
    (h : Accruing r c id done s) {v : ValidatorId} (hseated : 0 < r.weightOf v) (hv : v ∉ done)
    (hkey : (r.keyAt v r.settledView).length = 128) {sig : Bytes}
    (hverify : E.blsVerify (r.keyAt v r.settledView) (c.approveDigest E id v) sig = true)
    (hu64 : (done.map r.weightOf).sum + r.weightOf v < 2 ^ 64) (command : Bytes) :
    ⟨c, id, command⟩ ∈ (s.step E (.approve c id command v sig)).enacted ∨
      Accruing r c id (done ++ [v]) (s.step E (.approve c id command v sig)) := by
  have happrove := ApprovalTally.approve_of_counts (t := s.tally c) (c := c) (E := E) hseated
    h.pending (h.voted v hv) hkey hverify (by rw [h.weight]; exact hu64)
  have hcounts := ApprovalTally.counts_of_approve happrove
  have hsum : ((done ++ [v]).map r.weightOf).sum = (done.map r.weightOf).sum + r.weightOf v := by
    rw [List.map_append, List.sum_append, List.map_singleton, List.sum_singleton]
  rw [h.weight] at happrove hcounts
  simp only [Evm.step, h.registry, happrove]
  generalize hmajority : ApprovalTally.isSupermajority ((done.map r.weightOf).sum + r.weightOf v)
    r.totalWeight = emitted at hcounts
  cases emitted with
  | true => exact .inl (List.mem_append_right _ List.mem_cons_self)
  | false =>
    right
    have hproposal := hcounts.proposal id
    rw [if_pos rfl, h.weight] at hproposal
    have hless := of_decide_eq_false hmajority
    have hvoted : ∀ v', v' ∉ done ++ [v] → ApprovalTally.hasVoted
        ⟨(s.tally c).proposals.insert id ⟨(done.map r.weightOf).sum + r.weightOf v, false⟩,
          (s.tally c).voted.insert (id, v) true⟩ id v' = false := by
      intro v' hv'
      have hold := h.voted v' fun hmem => hv' (List.mem_append_left _ hmem)
      have hne : v' ≠ v := fun heq => hv' (List.mem_append_right _ (List.mem_singleton.mpr heq))
      rw [ApprovalTally.hasVoted, Table.get?_insert, if_neg (by simp [hne])]
      exact hold
    constructor
    · exact (Evm.registry_setTally _ _ _).trans h.registry
    · rw [tally_counted, hproposal]
    · rw [tally_counted, hproposal, hsum]
    · rw [hsum]
      omega
    · intro v' hv'
      rw [tally_counted]
      exact hvoted v' hv'

variable [DecidableEq T]

/-- Forged approvals, one after the other. -/
theorem Accruing.forgedAll (hr : r.Seated C) (E : EvmPrimitives) (command : Bytes)
    {done todo : List ValidatorId} {s : Evm} (h : Accruing r c id done s)
    (hnodup : (done ++ todo).Nodup) (hseated : ∀ v ∈ todo, 0 < r.weightOf v)
    (hsum : ((done ++ todo).map r.weightOf).sum ≤ r.totalWeight) :
    ⟨c, id, command⟩ ∈ (run (Evm.step (E.onCurve C)) s
        (forgedApprovals C (E.onCurve C) c r id command todo)).enacted ∨
      Accruing r c id (done ++ todo) (run (Evm.step (E.onCurve C)) s
        (forgedApprovals C (E.onCurve C) c r id command todo)) := by
  induction todo generalizing done s with
  | nil =>
    right
    rwa [List.append_nil]
  | cons v todo ih =>
    obtain ⟨hpos, hrest⟩ := List.forall_mem_cons.mp hseated
    obtain ⟨hlen, P, hP⟩ := hr.keys v hpos
    have hv : v ∉ done := fun hmem =>
      (List.nodup_append.mp hnodup).2.2 v hmem v List.mem_cons_self rfl
    have hsplit : done ++ v :: todo = done ++ [v] ++ todo := by simp
    have hle : (done.map r.weightOf).sum + r.weightOf v ≤ r.totalWeight := by
      rw [hsplit, List.map_append, List.sum_append, List.map_append, List.sum_append,
        List.map_singleton, List.sum_singleton] at hsum
      omega
    have hverify : (E.onCurve C).blsVerify (r.keyAt v r.settledView)
        (c.approveDigest (E.onCurve C) id v)
        (forge C P (bigEndian 32 (c.approveDigest (E.onCurve C) id v))) = true :=
      decide_eq_true ((verify_eq_true C hlen _ _).mpr (paired_forge C hP _))
    rw [forgedApprovals, List.map_cons, run_cons, hP, Option.map_some, Option.getD_some]
    rcases h.counted hpos hv hlen hverify (hle.trans_lt hr.u64) command with henacted | hnext
    · exact .inl (enacted_run _ _ henacted)
    · rw [hsplit] at hnodup hsum ⊢
      exact ih hnext hnodup hrest hsum

/-- Who has weight in the registry. -/
def Registry.seatedValidators (r : Registry) : List ValidatorId :=
  (r.weight.toList.map Prod.fst).filter fun v => 0 < r.weightOf v

theorem Registry.sum_seatedValidators (r : Registry) :
    (r.seatedValidators.map r.weightOf).sum = r.weight.sumOf fun _ w => w := by
  have hpos : ∀ l : List ValidatorId, ((l.filter fun v => 0 < r.weightOf v).map r.weightOf).sum =
      (l.map r.weightOf).sum := by
    intro l
    induction l with
    | nil => rfl
    | cons v l ih =>
      rw [List.filter_cons, List.map_cons, List.sum_cons, ← ih]
      rcases Nat.eq_zero_or_pos (r.weightOf v) with hzero | hv
      · simp [hzero]
      · simp [hv]
  rw [Registry.seatedValidators, hpos, List.map_map, Table.sumOf]
  congr 1
  refine List.map_congr_left fun e he => ?_
  have hget := (r.weight.mem_toList e.1 e.2).mp he
  rw [Function.comp_apply, Registry.weightOf, hget, Option.getD_some]

/-- Whatever a proposal nobody has approved names, anyone can have it enacted without a signature:
by one approval for every validator, each with a proof that is made from the validator's key. -/
theorem proposals_seized (E : EvmPrimitives) (C : BlsCurve G₁ G₂ T) (s : Evm)
    (hr : s.registry.Seated C) (c : ApprovalContract) (id : Bytes32)
    (hfresh : (s.tally c).Fresh id) (command : Bytes) :
    ∃ calls, (∀ call ∈ calls, ∃ v P, C.codec₁.decode
          (s.registry.keyAt v s.registry.settledView) = some P ∧
        call = .approve c id command v (forge C P (bigEndian 32 (c.approveDigest E id v)))) ∧
      ⟨c, id, command⟩ ∈ (run (Evm.step (E.onCurve C)) s calls).enacted := by
  have hmem : ∀ v ∈ s.registry.seatedValidators, 0 < s.registry.weightOf v := fun v hv =>
    of_decide_eq_true (List.mem_filter.mp hv).2
  have hnodup : s.registry.seatedValidators.Nodup := s.registry.weight.nodup_toList.filter _
  have hsum := s.registry.sum_seatedValidators.trans hr.total.symm
  have hstart : Accruing s.registry c id [] s := {
    registry := rfl
    pending := by rw [hfresh.proposal]
    weight := by rw [hfresh.proposal]; rfl
    minority := Nat.zero_le _
    voted := fun v _ => hfresh.voted v }
  refine ⟨forgedApprovals C (E.onCurve C) c s.registry id command s.registry.seatedValidators,
    ?_, ?_⟩
  · intro call hcall
    obtain ⟨v, hv, heq⟩ := List.mem_map.mp hcall
    obtain ⟨-, P, hP⟩ := hr.keys v (hmem v hv)
    rw [hP, Option.map_some, Option.getD_some] at heq
    exact ⟨v, P, hP, heq.symm⟩
  · have hrun := hstart.forgedAll hr E command
      (show ([] ++ s.registry.seatedValidators).Nodup from hnodup) hmem hsum.le
    rcases hrun with henacted | htallied
    · exact henacted
    · have hminority := htallied.minority
      have hpos := hr.pos
      rw [List.nil_append, hsum] at hminority
      omega

end

namespace Sample

/-- Residues modulo 5 as points, by the numbers that their bytes are. -/
def residues (size : ℕ) (hsize : 0 < size) : PairingCheck.PointCodec (ZMod 5) size where
  decode := fun bytes =>
    if bytes.length = size then some (KeyScan.fromBigEndian bytes : ZMod 5) else none
  encode := fun q => bigEndian size q.val
  length_encode := fun q => length_bigEndian size _
  decode_encode := by
    intro q
    have hlt : q.val < 256 ^ size :=
      (ZMod.val_lt q).trans_le ((show 5 ≤ 256 by decide).trans (Nat.le_self_pow hsize.ne' 256))
    rw [if_pos (length_bigEndian size _), KeyScan.fromBigEndian_bigEndian hlt,
      ZMod.natCast_zmod_val]

theorem cast_coordinate {n : ℕ} (h : n < fieldModulus) :
    (KeyScan.fromBigEndian (coordinate n) : ZMod 5) = n := by
  have hlt : n < 256 ^ 64 := h.trans (by decide)
  rw [coordinate, KeyScan.fromBigEndian_bigEndian hlt]

/-- A curve whose pairing is the product of residues. -/
def residueCurve : BlsCurve (ZMod 5) (ZMod 5) (ZMod 5) where
  sha256 := fun message => Vector.replicate 32 (UInt8.ofNat message.length)
  codec₁ := residues 128 (by decide)
  codec₂ := residues 256 (by decide)
  e := AddMonoidHom.mul
  generator := -(KeyScan.fromBigEndian negG1Gen : ZMod 5)
  mapFp2 := fun c₀ c₁ => c₀ + c₁
  mapFp2ToG2 := fun bytes => some (bigEndian 256 ((KeyScan.fromBigEndian (bytes.take 64) : ZMod 5) +
    (KeyScan.fromBigEndian (bytes.drop 64) : ZMod 5)).val)
  g2Add := fun bytes => some (bigEndian 256 ((KeyScan.fromBigEndian (bytes.take 256) : ZMod 5) +
    (KeyScan.fromBigEndian (bytes.drop 256) : ZMod 5)).val)
  decode_negG1Gen := by
    simp only [residues]
    rw [neg_neg, if_pos length_negG1Gen]
  mapFp2ToG2_eq := by
    intro c₀ c₁ h₀ h₁
    have hlen : (coordinate c₀).length = 64 := length_bigEndian 64 _
    rw [List.take_left' hlen, List.drop_left' hlen, cast_coordinate h₀, cast_coordinate h₁]
    simp only [residues]
  g2Add_eq := by
    intro a b
    have hlen : (bigEndian 256 a.val).length = 256 := length_bigEndian 256 _
    have hcast : ∀ q : ZMod 5, (KeyScan.fromBigEndian (bigEndian 256 q.val) : ZMod 5) = q := by
      intro q
      have hlt : q.val < 256 ^ 256 := (ZMod.val_lt q).trans (by decide)
      rw [KeyScan.fromBigEndian_bigEndian hlt, ZMod.natCast_zmod_val]
    simp only [residues]
    rw [List.take_left' hlen, List.drop_left' hlen, hcast, hcast]

theorem seated_on_residues : seated.Seated residueCurve where
  total := by decide +kernel
  u64 := by decide +kernel
  pos := by decide +kernel
  keys := by
    intro v hv
    have hall : ∀ v ∈ seated.weight.toList.map Prod.fst,
        (seated.keyAt v seated.settledView).length = 128 := by decide +kernel
    have hlen : (seated.keyAt v seated.settledView).length = 128 := by
      cases hget : seated.weight.get? v with
      | none => rw [Registry.weightOf, hget] at hv; cases hv
      | some w =>
        exact hall v (List.mem_map.mpr ⟨(v, w), (seated.weight.mem_toList v w).mpr hget, rfl⟩)
    exact ⟨hlen, _, if_pos hlen⟩

/-- Two votes of validator 1 that nobody has signed. -/
def unsignedVotes : EquivocationCall where
  validator := 1
  view := 0
  blockA := Vector.replicate 32 5
  blockB := Vector.replicate 32 6
  chainId := List.replicate 32 0
  sigA := []
  sigB := []

theorem unsignedVotes_slashed : ∃ P,
    residueCurve.codec₁.decode (seated.keyAt 1 0) = some P ∧
      (unsignedVotes.forged residueCurve P).sigA.length = 640 ∧
      submitEquivocation residueCurve seated (unsignedVotes.forged residueCurve P) =
        .ok unsignedVotes.toSlashedEvent := by
  have hlen : (seated.keyAt 1 0).length = 128 := by decide +kernel
  have hform : unsignedVotes.WellFormed seated := ⟨rfl, by decide, Nat.le_refl _, hlen⟩
  have hpoint : ∀ key : Bytes, key.length = 128 →
      residueCurve.codec₁.decode key = some (KeyScan.fromBigEndian key : ZMod 5) :=
    fun _ hkey => if_pos hkey
  have hkey := hpoint _ hlen
  exact ⟨_, hkey, length_forge residueCurve _ _,
    (equivocations_slashed residueCurve seated unsignedVotes).2.2 _ hform hkey⟩

/-- A command that no validator has signed is enacted. -/
theorem seated_seized :
    ∃ calls, (∀ call ∈ calls, ∃ v P, residueCurve.codec₁.decode
          (seated.keyAt v seated.settledView) = some P ∧
        call = .approve .governance 7 changeB v (forge residueCurve P
          (bigEndian 32 (ApprovalContract.governance.approveDigest evm 7 v)))) ∧
      ⟨.governance, 7, changeB⟩ ∈
        (run (Evm.step (evm.onCurve residueCurve)) (.genesis seated) calls).enacted :=
  proposals_seized evm residueCurve (.genesis seated) seated_on_residues .governance 7
    ⟨rfl, fun _ => rfl⟩ changeB

end Sample

end Boule
