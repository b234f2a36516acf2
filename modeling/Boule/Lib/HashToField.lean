import Boule.Lib.KeyScan

/-! Hashing to field elements by `expand_message_xmd` of RFC 9380. -/
namespace Boule.HashToField
open Framing KeyScan

/-- Bytewise. -/
def strxor (a b : List UInt8) : List UInt8 := List.zipWith (· ^^^ ·) a b

section
variable (hash : List UInt8 → List UInt8)

/-- The block `b_(i + 1)`; `b0` is the hash of the message. -/
def xmdBlock (b0 dstPrime : List UInt8) : ℕ → List UInt8
  | 0 => hash (b0 ++ bigEndian 1 1 ++ dstPrime)
  | i + 1 => hash (strxor b0 (xmdBlock b0 dstPrime i) ++ bigEndian 1 (i + 2) ++ dstPrime)

/-- The length of the tag follows it. -/
def dstPrime (dst : List UInt8) : List UInt8 := dst ++ bigEndian 1 dst.length

/-- What is hashed first; `inputSize` is that of the blocks of the hash function. -/
def msgPrime (inputSize : ℕ) (dst msg : List UInt8) (len : ℕ) : List UInt8 :=
  bigEndian inputSize 0 ++ msg ++ bigEndian 2 len ++ bigEndian 1 0 ++ dstPrime dst

/-- `expand_message_xmd` for a hash function with outputs of `outputSize` bytes. -/
def expandMessageXmd (inputSize outputSize : ℕ) (dst msg : List UInt8) (len : ℕ) :
    Option (List UInt8) :=
  let ell := (len + outputSize - 1) / outputSize
  if 255 < ell ∨ 65535 < len ∨ 255 < dst.length then none
  else
    let b0 := hash (msgPrime inputSize dst msg len)
    some (((List.range ell).flatMap (xmdBlock hash b0 (dstPrime dst))).take len)

end

/-- `hash_to_field`: `count` elements of degree `m` over the integers modulo `p`, from `size` bytes
for each coordinate. -/
def hashToField (expand : List UInt8 → ℕ → Option (List UInt8)) (p m size count : ℕ)
    (msg : List UInt8) : Option (List (List ℕ)) :=
  (expand msg (count * m * size)).map fun uniform =>
    (List.range count).map fun i => (List.range m).map fun j =>
      fromBigEndian ((uniform.drop (size * (j + i * m))).take size) % p

section
variable {hash : List UInt8 → List UInt8} {outputSize : ℕ}

theorem length_xmdBlock (hsize : ∀ msg, (hash msg).length = outputSize)
    (b0 dstPrime : List UInt8) (i : ℕ) : (xmdBlock hash b0 dstPrime i).length = outputSize := by
  cases i with
  | zero => exact hsize _
  | succ i => exact hsize _

theorem length_flatMap_range {f : ℕ → List UInt8} (hf : ∀ i, (f i).length = outputSize) (n : ℕ) :
    ((List.range n).flatMap f).length = n * outputSize := by
  induction n with
  | zero => simp
  | succ n ih =>
    rw [List.range_succ, List.flatMap_append, List.length_append, ih, List.flatMap_cons,
      List.flatMap_nil, List.append_nil, hf, Nat.succ_mul]

/-- Blocks that fill the length exactly are all of it. -/
theorem expandMessageXmd_eq (hsize : ∀ msg, (hash msg).length = outputSize) (inputSize : ℕ)
    (dst msg : List UInt8) (ell : ℕ) (hpos : 0 < outputSize) (hell : ell ≤ 255)
    (hlen : ell * outputSize ≤ 65535) (hdst : dst.length ≤ 255) :
    expandMessageXmd hash inputSize outputSize dst msg (ell * outputSize) =
      some ((List.range ell).flatMap
        (xmdBlock hash (hash (msgPrime inputSize dst msg (ell * outputSize))) (dstPrime dst))) := by
  have hdiv : (ell * outputSize + outputSize - 1) / outputSize = ell := by
    rw [Nat.add_sub_assoc hpos, Nat.add_comm, Nat.add_mul_div_right _ _ hpos,
      Nat.div_eq_of_lt (Nat.sub_one_lt_of_lt hpos), Nat.zero_add]
  unfold expandMessageXmd
  simp only
  rw [hdiv, if_neg (by omega), List.take_of_length_le]
  exact (length_flatMap_range (length_xmdBlock hsize _ _) ell).le

end

end Boule.HashToField
