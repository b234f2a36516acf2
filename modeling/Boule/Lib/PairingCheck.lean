import Boule.Lib.KeyScan
import Mathlib.Algebra.BigOperators.Group.List.Basic
import Mathlib.Algebra.Group.Hom.Instances
import Mathlib.Algebra.Group.TypeTags.Basic

/-! Pairings of points that are given as bytes, as the precompiles of EIP-198 and EIP-2537 compute
them. The target group is written additively, so that a product of pairings is a sum. -/
namespace Boule.PairingCheck
open Framing KeyScan

/-- Points as byte strings of one size. -/
structure PointCodec (G : Type) (size : ℕ) where
  decode : List UInt8 → Option G
  encode : G → List UInt8
  length_encode : ∀ p, (encode p).length = size
  decode_encode : ∀ p, decode (encode p) = some p

section
variable {G₁ G₂ T : Type} {n₁ n₂ : ℕ}

/-- `k` pairs of points, one after the other. -/
def decodePairs (c₁ : PointCodec G₁ n₁) (c₂ : PointCodec G₂ n₂) :
    ℕ → List UInt8 → Option (List (G₁ × G₂))
  | 0, _ => some []
  | k + 1, bytes => do
    let p ← c₁.decode (bytes.take n₁)
    let q ← c₂.decode ((bytes.drop n₁).take n₂)
    let rest ← decodePairs c₁ c₂ k (bytes.drop (n₁ + n₂))
    return (p, q) :: rest

/-- The first pair is that of the first bytes. -/
theorem decodePairs_append (c₁ : PointCodec G₁ n₁) (c₂ : PointCodec G₂ n₂) {p q : List UInt8}
    (hp : p.length = n₁) (hq : q.length = n₂) (k : ℕ) (rest : List UInt8) :
    decodePairs c₁ c₂ (k + 1) (p ++ (q ++ rest)) = do
      let P ← c₁.decode p
      let Q ← c₂.decode q
      let pairs ← decodePairs c₁ c₂ k rest
      return (P, Q) :: pairs := by
  subst hp
  subst hq
  rw [decodePairs, List.take_left, List.drop_left, List.take_left, ← List.length_append,
    ← List.append_assoc, List.drop_left]

variable [AddCommGroup G₁] [AddCommGroup G₂] [AddCommGroup T]

/-- The sum of the pairings. -/
def pairingSum (e : G₁ →+ G₂ →+ T) (pairs : List (G₁ × G₂)) : T :=
  (pairs.map fun p => e p.1 p.2).sum

/-- `PAIRING_CHECK` of EIP-2537; it fails on no pair at all, on a rest and on bytes that are not
points. -/
def pairingCheck [DecidableEq T] (c₁ : PointCodec G₁ n₁) (c₂ : PointCodec G₂ n₂)
    (e : G₁ →+ G₂ →+ T) (input : List UInt8) : Option (List UInt8) :=
  if input.length = 0 ∨ input.length % (n₁ + n₂) ≠ 0 then none
  else (decodePairs c₁ c₂ (input.length / (n₁ + n₂)) input).map fun pairs =>
    bigEndian 32 (if pairingSum e pairs = 0 then 1 else 0)

/-- A signature of a key over a point is checked by two pairings. -/
theorem pairing_eq_iff (e : G₁ →+ G₂ →+ T) (key generator : G₁) (h sig : G₂) :
    pairingSum e [(key, h), (-generator, sig)] = 0 ↔ e key h = e generator sig := by
  simp [pairingSum, ← sub_eq_add_neg, sub_eq_zero]

/-- Whoever may add a pair needs no signature. -/
theorem pairing_forged (e : G₁ →+ G₂ →+ T) (key generator : G₁) (h : G₂) :
    pairingSum e [(key, h), (generator, 0), (-key, h)] = 0 := by
  simp [pairingSum]

end

/-! ### Powers -/

/-- Bytes past the end of the input are zero. -/
def readPadded (input : List UInt8) (start len : ℕ) : List UInt8 :=
  ((input.drop start).take len).rightpad len 0

/-- `MODEXP` of EIP-198, on the lengths of the three numbers and then the numbers. -/
def modexp (input : List UInt8) : List UInt8 :=
  let number := fun start len => fromBigEndian (readPadded input start len)
  let baseLen := number 0 32
  let expLen := number 32 32
  let modLen := number 64 32
  let base := number 96 baseLen
  let exponent := number (96 + baseLen) expLen
  let modulus := number (96 + baseLen + expLen) modLen
  bigEndian modLen (if modulus = 0 then 0 else base ^ exponent % modulus)

theorem readPadded_append (pre part rest : List UInt8) {start len : ℕ}
    (hpre : pre.length = start) (hpart : part.length = len) :
    readPadded (pre ++ (part ++ rest)) start len = part := by
  rw [readPadded, ← hpre, List.drop_left, ← hpart, List.take_left, List.rightpad,
    Nat.sub_self, List.replicate_zero, List.append_nil]

/-- The precompile raises the first number to the second, modulo the third. -/
theorem modexp_eq (base exponent modulus : List UInt8) (hbase : base.length < 256 ^ 32)
    (hexponent : exponent.length < 256 ^ 32) (hmodulus : modulus.length < 256 ^ 32)
    (hpos : fromBigEndian modulus ≠ 0) :
    modexp (bigEndian 32 base.length ++ (bigEndian 32 exponent.length ++
        (bigEndian 32 modulus.length ++ (base ++ (exponent ++ modulus))))) =
      bigEndian modulus.length
        (fromBigEndian base ^ fromBigEndian exponent % fromBigEndian modulus) := by
  have hlen : ∀ n, (bigEndian 32 n).length = 32 := length_bigEndian 32
  have hbaseLen := readPadded_append [] (bigEndian 32 base.length) (bigEndian 32 exponent.length ++
    (bigEndian 32 modulus.length ++ (base ++ (exponent ++ modulus)))) List.length_nil (hlen _)
  have hexpLen := readPadded_append (bigEndian 32 base.length) (bigEndian 32 exponent.length)
    (bigEndian 32 modulus.length ++ (base ++ (exponent ++ modulus))) (hlen _) (hlen _)
  have hmodLen := readPadded_append (bigEndian 32 base.length ++ bigEndian 32 exponent.length)
    (bigEndian 32 modulus.length) (base ++ (exponent ++ modulus))
    (List.length_append.trans (congrArg₂ (· + ·) (hlen _) (hlen _))) (hlen _)
  have hhead : (bigEndian 32 base.length ++ bigEndian 32 exponent.length ++
      bigEndian 32 modulus.length).length = 96 := by
    rw [List.length_append, List.length_append, hlen, hlen, hlen]
  have hbaseAt := readPadded_append _ base (exponent ++ modulus) hhead rfl
  have hexpAt := readPadded_append (bigEndian 32 base.length ++ bigEndian 32 exponent.length ++
    bigEndian 32 modulus.length ++ base) exponent modulus
    (by rw [List.length_append, hhead]) rfl
  have hmodAt := readPadded_append (bigEndian 32 base.length ++ bigEndian 32 exponent.length ++
    bigEndian 32 modulus.length ++ base ++ exponent) modulus []
    (by rw [List.length_append, List.length_append, hhead]) rfl
  simp only [List.append_assoc, List.nil_append] at hbaseLen hexpLen hmodLen
  simp only [List.append_assoc, List.append_nil] at hbaseAt hexpAt hmodAt
  unfold modexp
  simp only [hbaseLen, hexpLen, hmodLen, fromBigEndian_bigEndian hbase,
    fromBigEndian_bigEndian hexponent, fromBigEndian_bigEndian hmodulus, hbaseAt, hexpAt, hmodAt]
  rw [if_neg hpos]

end Boule.PairingCheck
