import Boule.Basic
import Boule.Lib.Table

/-! `Registry.sol`: keys by view, weights and the settled frontier. A call that fails reverts. -/
namespace Boule

/-- A 20-byte account address. -/
abbrev Address := ℕ

/-- `SYSTEM`, the caller that the execution layer writes as. -/
def systemAddress : Address := 0xffffFFFfFFffffffffffffffFfFFFfffFFFfFFfE

/-- A key of a validator, in 128 bytes, and the first view in which it is active. -/
structure RegistryEntry where
  vEff : ℕ
  key : Bytes
  deriving DecidableEq

inductive RegistryError where
  | unauthorized
  | vEffNotIncreasing
  | arithmetic
  deriving DecidableEq

structure Registry where
  history : Table ValidatorId (List RegistryEntry)
  weight : Table ValidatorId ℕ
  totalWeight : ℕ
  settledView : ℕ
  deriving DecidableEq

/-- Solidity's `u64` addition. -/
def addOrRevert {ε : Type} (e : ε) (a b : ℕ) : Except ε ℕ := okOr (checkedAddU64 a b) e

def subOrRevert {ε : Type} (e : ε) (a b : ℕ) : Except ε ℕ :=
  if b ≤ a then .ok (a - b) else .error e

namespace Registry

def entries (r : Registry) (validator : ValidatorId) : List RegistryEntry :=
  (r.history.get? validator).getD []

def weightOf (r : Registry) (validator : ValidatorId) : ℕ := (r.weight.get? validator).getD 0

def onlyWriter (caller : Address) : Except RegistryError Unit :=
  require (caller = systemAddress) .unauthorized

def recordKey (r : Registry) (caller : Address) (validator : ValidatorId) (vEff : ℕ)
    (key : Bytes) : Except RegistryError Registry := do
  onlyWriter caller
  let h := r.entries validator
  require (h.getLast?.all (·.vEff < vEff)) .vEffNotIncreasing
  return { r with history := r.history.insert validator (h ++ [⟨vEff, key⟩]) }

/-- The loop runs from the last entry to the first. -/
def keyAt (r : Registry) (validator : ValidatorId) (viewNum : ℕ) : Bytes :=
  (((r.entries validator).reverse.find? (·.vEff ≤ viewNum)).map RegistryEntry.key).getD []

def recordWeight (r : Registry) (caller : Address) (validator : ValidatorId) (newWeight : ℕ) :
    Except RegistryError Registry := do
  onlyWriter caller
  let oldWeight := r.weightOf validator
  let others ← subOrRevert .arithmetic r.totalWeight oldWeight
  let totalWeight ← addOrRevert .arithmetic others newWeight
  return { r with
    weight := r.weight.insert validator newWeight
    totalWeight := totalWeight }

def recordSettled (r : Registry) (caller : Address) (viewNum : ℕ) :
    Except RegistryError Registry := do
  onlyWriter caller
  return if viewNum ≤ r.settledView then r else { r with settledView := viewNum }

theorem weightOf_recordWeight {r r' : Registry} {caller : Address} {validator : ValidatorId}
    {newWeight : ℕ} (h : r.recordWeight caller validator newWeight = .ok r') (v : ValidatorId) :
    caller = systemAddress ∧
      r'.weightOf v = if v = validator then newWeight else r.weightOf v := by
  obtain ⟨_, hcaller, h⟩ := bind_eq_ok.mp h
  obtain ⟨others, -, h⟩ := bind_eq_ok.mp h
  obtain ⟨total, -, h⟩ := bind_eq_ok.mp h
  obtain rfl := Except.ok.inj h
  refine ⟨of_decide_eq_true (require_eq_ok.mp hcaller), ?_⟩
  unfold weightOf
  simp only
  rw [Table.get?_insert]
  split_ifs <;> rfl

theorem weightOf_recordKey {r r' : Registry} {caller : Address} {validator : ValidatorId}
    {vEff : ℕ} {key : Bytes} (h : r.recordKey caller validator vEff key = .ok r')
    (v : ValidatorId) : r'.weightOf v = r.weightOf v := by
  obtain ⟨_, -, h⟩ := bind_eq_ok.mp h
  obtain ⟨_, -, h⟩ := bind_eq_ok.mp h
  obtain rfl := Except.ok.inj h
  rfl

theorem weightOf_recordSettled {r r' : Registry} {caller : Address} {viewNum : ℕ}
    (h : r.recordSettled caller viewNum = .ok r') (v : ValidatorId) :
    r'.weightOf v = r.weightOf v := by
  obtain ⟨_, -, h⟩ := bind_eq_ok.mp h
  obtain rfl := Except.ok.inj h
  split_ifs <;> rfl

end Registry

end Boule
