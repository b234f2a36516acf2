import Boule.Lib.HashToField
import Boule.Lib.PairingCheck
import Boule.Reth.Registry
import Boule.Reth.Slashing

/-! `BlsVerify.sol`: BLS signatures checked by precompiles, and the slashing contract on top of it.
The curve and SHA-256 are parameters. -/
namespace Boule
open Framing KeyScan HashToField PairingCheck

namespace BlsVerify

/-- `DST` -/
def dst : Bytes :=
  "BOULE_HOTSTUFF_BLS_SIG_BLS12381G2_XMD:SHA-256_SSWU_RO_POP_".toUTF8.data.toList

/-- The base field modulus, which `P` has in 48 bytes. -/
def fieldModulus : ℕ :=
  0x1a0111ea397fe69a4b1ba7b6434bacd764774b84f38512bf6730d2a0f6b0f6241eabfffeb153ffffb9feffffffffaaab

def p : Bytes := bigEndian 48 fieldModulus

/-- A coordinate as EIP-2537 has it. -/
def coordinate (n : ℕ) : Bytes := bigEndian 64 n

def negG1GenX : ℕ :=
  0x17f1d3a73197d7942695638c4fa9ac0fc3688c4f9774b905a14e3a3f171bac586c55e83ff97a1aeffb3af00adb22c6bb

def negG1GenY : ℕ :=
  0x114d1d6855d545a8aa7d76c8cf2e21f267816aef1db507c96655b9d5caac42364e6f38ba0ecb751bad54dcd6b939c2ca

/-- `NEG_G1GEN` -/
def negG1Gen : Bytes := coordinate negG1GenX ++ coordinate negG1GenY

end BlsVerify

/-- The curve and the precompiles on it, with what EIP-2537 says of them: a map from the quadratic
extension of the base field to the second group, and addition there. -/
structure BlsCurve (G₁ G₂ T : Type) [AddCommGroup G₁] [AddCommGroup G₂] [AddCommGroup T] where
  sha256 : Bytes → ByteArray32
  codec₁ : PointCodec G₁ 128
  codec₂ : PointCodec G₂ 256
  e : G₁ →+ G₂ →+ T
  generator : G₁
  mapFp2 : ℕ → ℕ → G₂
  mapFp2ToG2 : Bytes → Option Bytes
  g2Add : Bytes → Option Bytes
  decode_negG1Gen : codec₁.decode BlsVerify.negG1Gen = some (-generator)
  mapFp2ToG2_eq : ∀ c₀ c₁, c₀ < BlsVerify.fieldModulus → c₁ < BlsVerify.fieldModulus →
    mapFp2ToG2 (BlsVerify.coordinate c₀ ++ BlsVerify.coordinate c₁) =
      some (codec₂.encode (mapFp2 c₀ c₁))
  g2Add_eq : ∀ a b, g2Add (codec₂.encode a ++ codec₂.encode b) = some (codec₂.encode (a + b))

namespace BlsVerify

/-- `dst[i] = b`, out of bounds a panic. -/
def setByte (bytes : Bytes) (i : ℕ) (b : UInt8) : Option Bytes :=
  if i < bytes.length then some (bytes.set i b) else none

/-- The loop of `_store32`, over the bytes of the word with their indices. -/
def store32 (bytes : Bytes) (off : ℕ) (word : ByteArray32) : Option Bytes :=
  word.toList.zipIdx.foldlM (fun bytes e => setByte bytes (off + e.2) e.1) bytes

/-- The loop of `_slice64`. -/
def slice64 (src : Bytes) (off : ℕ) : Option Bytes := (List.range 64).mapM fun i => src[off + i]?

/-- `abi.encodePacked(DST, uint8(DST.length))` -/
def dstSuffixed : Bytes := dst ++ [UInt8.ofNat dst.length]

/-- `b0 ^ prev` -/
def xor32 (a b : ByteArray32) : Bytes := List.zipWith (· ^^^ ·) a.toList b.toList

section
variable {G₁ G₂ T : Type} [AddCommGroup G₁] [AddCommGroup G₂] [AddCommGroup T]
variable (C : BlsCurve G₁ G₂ T)

/-- The body of the loop of `_expandMessageXmd`. -/
def expandStep (b0 : ByteArray32) (s : Bytes × ByteArray32) (i : ℕ) :
    Option (Bytes × ByteArray32) := do
  let bi := C.sha256 (xor32 b0 s.2 ++ [UInt8.ofNat i] ++ dstSuffixed)
  let out ← store32 s.1 ((i - 1) * 32) bi
  return (out, bi)

def expandMessageXmd (message : Bytes) : Option Bytes := do
  let msgPrime := List.replicate 64 0 ++ message ++ [1] ++ [0] ++ [0] ++ dstSuffixed
  let b0 := C.sha256 msgPrime
  let prev := C.sha256 (b0.toList ++ [1] ++ dstSuffixed)
  let out ← store32 (List.replicate 256 0) 0 prev
  let (out, _) ← [2, 3, 4, 5, 6, 7, 8].foldlM (expandStep C b0) (out, prev)
  return out

/-- `_reduceTo64` -/
def reduceTo64 (chunk64 : Bytes) : Option Bytes :=
  let r := modexp (bigEndian 32 64 ++ bigEndian 32 1 ++ bigEndian 32 48 ++ chunk64 ++ [1] ++ p)
  if r.length = 48 then some (List.replicate 16 0 ++ r) else none

/-- `_mapToG2` -/
def mapToG2 (fp2 : Bytes) : Option Bytes := (C.mapFp2ToG2 fp2).filter (·.length = 256)

def hashToG2 (message : Bytes) : Option Bytes := do
  let u ← expandMessageXmd C message
  let u0 := (← reduceTo64 (← slice64 u 0)) ++ (← reduceTo64 (← slice64 u 64))
  let u1 := (← reduceTo64 (← slice64 u 128)) ++ (← reduceTo64 (← slice64 u 192))
  let q0 ← mapToG2 C u0
  let q1 ← mapToG2 C u1
  (C.g2Add (q0 ++ q1)).filter (·.length = 256)

/-- `_verify`; `none` if the call reverts. -/
def verify [DecidableEq T] (pubkey message sig : Bytes) : Option Bool := do
  let h ← hashToG2 C message
  match pairingCheck C.codec₁ C.codec₂ C.e (pubkey ++ h ++ negG1Gen ++ sig) with
  | none => return false
  | some r => return r.length = 32 && r[31]? = some 1

end

/-! ### Loops over bytes -/

theorem setByte_eq {bytes : Bytes} {i : ℕ} (h : i < bytes.length) (b : UInt8) :
    setByte bytes i b = some (bytes.take i ++ b :: bytes.drop (i + 1)) := by
  rw [setByte, if_pos h, List.set_eq_take_append_cons_drop, if_pos h]

/-- The loop overwrites as many bytes as there are in the word. -/
theorem storeLoop_eq (word : Bytes) (off : ℕ) (pre old post : Bytes) (k : ℕ)
    (hpre : pre.length = off + k) (hold : old.length = word.length) :
    (word.zipIdx k).foldlM (fun bytes e => setByte bytes (off + e.2) e.1) (pre ++ old ++ post) =
      some (pre ++ word ++ post) := by
  induction word generalizing pre old k with
  | nil => rw [List.eq_nil_of_length_eq_zero hold, List.zipIdx_nil, List.foldlM_nil]; rfl
  | cons b word ih =>
    cases old with
    | nil => cases hold
    | cons b' old =>
      have hset : setByte (pre ++ b' :: old ++ post) (off + k) b =
          some (pre ++ [b] ++ old ++ post) := by
        rw [setByte_eq (by simp [hpre]), ← hpre]
        simp
      rw [List.zipIdx_cons, List.foldlM_cons, hset, Option.bind_eq_bind, Option.bind_some,
        ih (pre ++ [b]) old (k + 1) (by rw [List.length_append, hpre]; rfl) (Nat.succ.inj hold)]
      simp

theorem store32_eq (word : ByteArray32) {off : ℕ} (pre old post : Bytes) (hpre : pre.length = off)
    (hold : old.length = 32) :
    store32 (pre ++ old ++ post) off word = some (pre ++ word.toList ++ post) := by
  have hword : word.toList.length = 32 := Vector.length_toList
  exact storeLoop_eq word.toList off pre old post 0 hpre (hold.trans hword.symm)

theorem sliceLoop_eq {src : Bytes} {off : ℕ} (n : ℕ) (h : off + n ≤ src.length) :
    (List.range n).mapM (fun i => src[off + i]?) = some ((src.drop off).take n) := by
  induction n with
  | zero => simp
  | succ n ih =>
    have hlt : off + n < src.length := by omega
    have hget : src[off + n]? = some src[off + n] := List.getElem?_eq_getElem hlt
    rw [List.range_succ, List.mapM_append, ih (by omega), List.take_add_one, List.getElem?_drop,
      hget]
    simp [hget]

theorem slice64_eq {src : Bytes} {off : ℕ} (h : off + 64 ≤ src.length) :
    slice64 src off = some ((src.drop off).take 64) :=
  sliceLoop_eq 64 h

theorem bigEndian_one (n : ℕ) : bigEndian 1 n = [UInt8.ofNat n] := by
  rw [bigEndian, bigEndian, pow_zero, Nat.div_one]

theorem bigEndian_padded (width : ℕ) {n : ℕ} (h : n < 256 ^ width) (pad : ℕ) :
    bigEndian (pad + width) n = List.replicate pad 0 ++ bigEndian width n := by
  induction pad with
  | zero => rw [Nat.zero_add, List.replicate_zero, List.nil_append]
  | succ pad ih =>
    have hlt : n < 256 ^ (pad + width) :=
      h.trans_le (Nat.pow_le_pow_right (by omega) (Nat.le_add_left _ _))
    rw [Nat.add_right_comm, bigEndian, Nat.div_eq_of_lt hlt, ih, List.replicate_succ]
    rfl

/-! ### Hashing to the curve -/

theorem fieldModulus_lt : fieldModulus < 256 ^ 48 := by decide

theorem reduceTo64_eq {chunk : Bytes} (h : chunk.length = 64) :
    reduceTo64 chunk = some (coordinate (fromBigEndian chunk % fieldModulus)) := by
  have hp : fromBigEndian p = fieldModulus := fromBigEndian_bigEndian fieldModulus_lt
  have hplen : p.length = 48 := length_bigEndian 48 _
  have hne : fromBigEndian p ≠ 0 := by
    rw [hp]
    decide
  have hr := modexp_eq chunk [1] p (by rw [h]; decide)
    (by decide) (by rw [hplen]; decide) hne
  have hone : fromBigEndian [1] = 1 := rfl
  have hlt : fromBigEndian chunk % fieldModulus < 256 ^ 48 :=
    (Nat.mod_lt _ (by decide)).trans fieldModulus_lt
  rw [h, List.length_singleton, hplen, hp, hone, pow_one] at hr
  unfold reduceTo64
  simp only [List.append_assoc]
  rw [hr, if_pos (length_bigEndian 48 _)]
  exact congrArg some (bigEndian_padded 48 hlt 16).symm

theorem dstSuffixed_eq : dstSuffixed = dstPrime dst := by
  rw [dstSuffixed, dstPrime, bigEndian_one]

section
variable {G₁ G₂ T : Type} [AddCommGroup G₁] [AddCommGroup G₂] [AddCommGroup T]
variable (C : BlsCurve G₁ G₂ T)

/-- SHA-256 as a function to bytes. -/
def sha (message : Bytes) : Bytes := (C.sha256 message).toList

theorem length_sha (message : Bytes) : (sha C message).length = 32 := Vector.length_toList

theorem expandStep_eq (b0 prev : ByteArray32) {i : ℕ} (pre post : Bytes)
    (hpre : pre.length = (i - 1) * 32) :
    expandStep C b0 (pre ++ List.replicate 32 0 ++ post, prev) i =
      some (pre ++ sha C (xor32 b0 prev ++ [UInt8.ofNat i] ++ dstSuffixed) ++ post,
        C.sha256 (xor32 b0 prev ++ [UInt8.ofNat i] ++ dstSuffixed)) := by
  unfold expandStep
  simp only
  rw [store32_eq _ pre _ post hpre List.length_replicate]
  rfl

/-- After `n` rounds of the loop the first `n + 1` blocks are there. -/
theorem expandLoop_eq (b0 first : ByteArray32) {n : ℕ} (hn : n ≤ 7)
    (hfirst : first.toList = xmdBlock (sha C) b0.toList (dstPrime dst) 0) :
    ∃ prev : ByteArray32, prev.toList = xmdBlock (sha C) b0.toList (dstPrime dst) n ∧
      (List.range' 2 n).foldlM (expandStep C b0) (first.toList ++ List.replicate 224 0, first) =
        some ((List.range (n + 1)).flatMap (xmdBlock (sha C) b0.toList (dstPrime dst)) ++
          List.replicate (224 - 32 * n) 0, prev) := by
  induction n with
  | zero => exact ⟨first, hfirst, by simp [hfirst]⟩
  | succ n ih =>
    obtain ⟨prev, hprev, hloop⟩ := ih (by omega)
    have hblock : sha C (xor32 b0 prev ++ [UInt8.ofNat (n + 2)] ++ dstSuffixed) =
        xmdBlock (sha C) b0.toList (dstPrime dst) (n + 1) := by
      rw [xmdBlock, ← hprev, bigEndian_one, dstSuffixed_eq]
      rfl
    have hsize := length_flatMap_range
      (length_xmdBlock (length_sha C) b0.toList (dstPrime dst)) (n + 1)
    have hzeros : List.replicate (224 - 32 * n) (0 : UInt8) =
        List.replicate 32 0 ++ List.replicate (224 - 32 * (n + 1)) 0 := by
      rw [← List.replicate_add]
      congr 1
      omega
    have hstep := expandStep_eq C b0 prev (i := n + 2) _ (List.replicate (224 - 32 * (n + 1)) 0)
      hsize
    rw [List.append_assoc, ← hzeros, hblock] at hstep
    have hindex : 2 + 1 * n = n + 2 := by omega
    refine ⟨_, hblock, ?_⟩
    rw [List.range'_concat, List.foldlM_append, hloop, hindex,
      List.range_succ (n := n + 1), List.flatMap_append]
    simp only [List.flatMap_cons, List.flatMap_nil, List.append_nil]
    exact congrArg (fun s => s >>= pure) hstep

theorem expandMessageXmd_eq (message : Bytes) :
    expandMessageXmd C message = HashToField.expandMessageXmd (sha C) 64 32 dst message 256 := by
  have hmsg : List.replicate 64 0 ++ message ++ [1] ++ [0] ++ [0] ++ dstSuffixed =
      msgPrime 64 dst message (8 * 32) := by
    rw [msgPrime, dstSuffixed_eq]
    simp [show bigEndian 64 0 = List.replicate 64 0 by decide,
      show bigEndian 2 256 = [1, 0] by decide, show bigEndian 1 0 = [0] by decide]
  have hfirst : (C.sha256 ((C.sha256 (msgPrime 64 dst message (8 * 32))).toList ++ [1] ++
      dstSuffixed)).toList = xmdBlock (sha C) (C.sha256 (msgPrime 64 dst message (8 * 32))).toList
        (dstPrime dst) 0 := by
    rw [xmdBlock, dstSuffixed_eq, bigEndian_one]
    rfl
  obtain ⟨prev, -, hloop⟩ := expandLoop_eq C (C.sha256 (msgPrime 64 dst message (8 * 32))) _
    (Nat.le_refl 7) hfirst
  have hstore := store32_eq (C.sha256 ((C.sha256 (msgPrime 64 dst message (8 * 32))).toList ++
    [1] ++ dstSuffixed)) [] (List.replicate 32 0) (List.replicate 224 0) List.length_nil
    List.length_replicate
  have hzeros : List.replicate 256 (0 : UInt8) =
      [] ++ List.replicate 32 0 ++ List.replicate 224 0 := by
    rw [List.nil_append, ← List.replicate_add]
  have hrange : [2, 3, 4, 5, 6, 7, 8] = List.range' 2 7 := by decide
  have hspec := HashToField.expandMessageXmd_eq (length_sha C) 64 dst message 8
    (by omega) (by omega) (by omega) (by decide)
  rw [hspec]
  unfold expandMessageXmd
  simp only [hmsg]
  rw [hzeros, hstore, hrange]
  simp only [List.nil_append, Option.bind_eq_bind, Option.bind_some]
  rw [hloop]
  simp
  rfl

/-- The coordinates that RFC 9380 hashes a message to: two elements of degree two. -/
def fieldElements (message : Bytes) : Option (List (List ℕ)) :=
  hashToField (HashToField.expandMessageXmd (sha C) 64 32 dst) fieldModulus 2 64 2 message

/-- The point that RFC 9380 hashes a message to. -/
def hashPoint (message : Bytes) : G₂ :=
  match fieldElements C message with
  | some [[c₀, c₁], [c₂, c₃]] => C.mapFp2 c₀ c₁ + C.mapFp2 c₂ c₃
  | _ => 0

theorem filter_encode (q : G₂) :
    (some (C.codec₂.encode q)).filter (fun r => r.length = 256) = some (C.codec₂.encode q) := by
  simp [C.codec₂.length_encode q]

theorem mapToG2_eq {c₀ c₁ : ℕ} (h₀ : c₀ < fieldModulus) (h₁ : c₁ < fieldModulus) :
    mapToG2 C (coordinate c₀ ++ coordinate c₁) = some (C.codec₂.encode (C.mapFp2 c₀ c₁)) := by
  rw [mapToG2, C.mapFp2ToG2_eq c₀ c₁ h₀ h₁]
  exact filter_encode C _

/-- The coordinate from 64 of the hashed bytes. -/
def chunkElement (uniform : Bytes) (off : ℕ) : ℕ :=
  fromBigEndian ((uniform.drop off).take 64) % fieldModulus

/-- The 256 bytes that a message is expanded to. -/
theorem exists_uniform (message : Bytes) : ∃ uniform, uniform.length = 256 ∧
    HashToField.expandMessageXmd (sha C) 64 32 dst message 256 = some uniform := by
  have hspec := HashToField.expandMessageXmd_eq (length_sha C) 64 dst message 8
    (by omega) (by omega) (by omega) (by decide)
  exact ⟨_, length_flatMap_range (length_xmdBlock (length_sha C) _ _) 8, hspec⟩

theorem fieldElements_eq {message uniform : Bytes}
    (h : HashToField.expandMessageXmd (sha C) 64 32 dst message 256 = some uniform) :
    fieldElements C message = some [[chunkElement uniform 0, chunkElement uniform 64],
      [chunkElement uniform 128, chunkElement uniform 192]] := by
  have hsize : 2 * 2 * 64 = 256 := by decide
  rw [fieldElements, hashToField, hsize, h]
  rfl

theorem hashToG2_of_uniform {message uniform : Bytes} (hlen : uniform.length = 256)
    (h : HashToField.expandMessageXmd (sha C) 64 32 dst message 256 = some uniform) :
    hashToG2 C message = some (C.codec₂.encode
      (C.mapFp2 (chunkElement uniform 0) (chunkElement uniform 64) +
        C.mapFp2 (chunkElement uniform 128) (chunkElement uniform 192))) := by
  have huniform : expandMessageXmd C message = some uniform :=
    (expandMessageXmd_eq C message).trans h
  have hslice : ∀ off, off + 64 ≤ 256 →
      slice64 uniform off = some ((uniform.drop off).take 64) := fun off hoff =>
    slice64_eq (by omega)
  have hreduce : ∀ off, off + 64 ≤ 256 →
      reduceTo64 ((uniform.drop off).take 64) = some (coordinate (chunkElement uniform off)) := by
    intro off hoff
    refine reduceTo64_eq ?_
    rw [List.length_take, List.length_drop]
    omega
  have hlt : ∀ off, chunkElement uniform off < fieldModulus := fun off =>
    Nat.mod_lt _ (by decide)
  rw [hashToG2, huniform]
  simp only [Option.bind_eq_bind, Option.bind_some, hslice _ (show 0 + 64 ≤ 256 by omega),
    hslice _ (show 64 + 64 ≤ 256 by omega), hslice _ (show 128 + 64 ≤ 256 by omega),
    hslice _ (show 192 + 64 ≤ 256 by omega), hreduce _ (show 0 + 64 ≤ 256 by omega),
    hreduce _ (show 64 + 64 ≤ 256 by omega), hreduce _ (show 128 + 64 ≤ 256 by omega),
    hreduce _ (show 192 + 64 ≤ 256 by omega), mapToG2_eq C (hlt _) (hlt _), C.g2Add_eq]
  exact filter_encode C _

theorem hashToG2_eq (message : Bytes) :
    hashToG2 C message = some (C.codec₂.encode (hashPoint C message)) := by
  obtain ⟨uniform, hlen, h⟩ := exists_uniform C message
  rw [hashToG2_of_uniform C hlen h, hashPoint, fieldElements_eq C h]

/-- On every message the contract's loops give the 256 bytes of `expand_message_xmd`, and it goes on
to the sum of the two points that their field elements are mapped to; it never reverts. -/
theorem hashes_to_curve (message : Bytes) :
    expandMessageXmd C message = HashToField.expandMessageXmd (sha C) 64 32 dst message 256 ∧
      ∃ c₀ c₁ c₂ c₃,
        hashToField (HashToField.expandMessageXmd (sha C) 64 32 dst) fieldModulus 2 64 2 message =
          some [[c₀, c₁], [c₂, c₃]] ∧
        hashToG2 C message = some (C.codec₂.encode (C.mapFp2 c₀ c₁ + C.mapFp2 c₂ c₃)) := by
  obtain ⟨uniform, hlen, h⟩ := exists_uniform C message
  exact ⟨expandMessageXmd_eq C message, _, _, _, _, fieldElements_eq C h,
    hashToG2_of_uniform C hlen h⟩

/-! ### Signatures -/

/-- The pairing equation over all pairs that the bytes of the signature make: the key with the
message, the generator with the signature, and whatever follows its 256 bytes. -/
def Paired (key message sig : Bytes) : Prop :=
  ∃ P S k extra, C.codec₁.decode key = some P ∧ sig.length = 256 + 384 * k ∧
    C.codec₂.decode (sig.take 256) = some S ∧
      decodePairs C.codec₁ C.codec₂ k (sig.drop 256) = some extra ∧
        pairingSum C.e ((P, hashPoint C message) :: (-C.generator, S) :: extra) = 0

/-- A BLS signature of the holder of the key. -/
def SignedBy (key message sig : Bytes) : Prop :=
  ∃ P S, C.codec₁.decode key = some P ∧ C.codec₂.decode sig = some S ∧
    C.e P (hashPoint C message) = C.e C.generator S

/-- In 256 bytes there is nothing but a signature. -/
theorem paired_iff_signedBy {key message sig : Bytes} (hsig : sig.length = 256) :
    Paired C key message sig ↔ SignedBy C key message sig := by
  constructor
  · intro ⟨P, S, k, extra, hkey, hlen, hS, hextra, hsum⟩
    have hk : k = 0 := by omega
    subst hk
    have hnil : extra = [] := (Option.some.inj hextra).symm
    rw [List.take_of_length_le hsig.le] at hS
    rw [hnil, pairing_eq_iff] at hsum
    exact ⟨P, S, hkey, hS, hsum⟩
  · intro ⟨P, S, hkey, hS, he⟩
    refine ⟨P, S, 0, [], hkey, hsig, ?_, rfl, (pairing_eq_iff _ _ _ _ _).mpr he⟩
    rwa [List.take_of_length_le hsig.le]

/-- A proof that is made from the key alone: no signature, and a pair that cancels the message. -/
def forge (P : G₁) (message : Bytes) : Bytes :=
  C.codec₂.encode 0 ++ (C.codec₁.encode (-P) ++ (C.codec₂.encode (hashPoint C message) ++ []))

theorem length_forge (P : G₁) (message : Bytes) : (forge C P message).length = 640 := by
  simp [forge, C.codec₁.length_encode, C.codec₂.length_encode]

theorem paired_forge {key : Bytes} {P : G₁} (hkey : C.codec₁.decode key = some P)
    (message : Bytes) : Paired C key message (forge C P message) := by
  have hzero : (C.codec₂.encode 0).length = 256 := C.codec₂.length_encode 0
  have hpairs := decodePairs_append C.codec₁ C.codec₂ (C.codec₁.length_encode (-P))
    (C.codec₂.length_encode (hashPoint C message)) 0 []
  rw [C.codec₁.decode_encode, C.codec₂.decode_encode] at hpairs
  refine ⟨P, 0, 1, [(-P, hashPoint C message)], hkey, ?_, ?_, ?_, pairing_forged _ _ _ _⟩
  · simp [forge, C.codec₁.length_encode, C.codec₂.length_encode]
  · rw [forge, List.take_left' hzero]
    exact C.codec₂.decode_encode 0
  · rw [forge, List.drop_left' hzero]
    exact hpairs

theorem last_of_bigEndian (holds : Prop) [Decidable holds] :
    ((bigEndian 32 (if holds then 1 else 0)).length = 32 &&
      (bigEndian 32 (if holds then 1 else 0))[31]? = some 1) = decide holds := by
  have hone : ((bigEndian 32 1).length = 32 && (bigEndian 32 1)[31]? = some 1) = true := by decide
  have hzero : ((bigEndian 32 0).length = 32 && (bigEndian 32 0)[31]? = some 1) = false := by
    decide
  by_cases h : holds
  · rw [if_pos h, hone, decide_eq_true h]
  · rw [if_neg h, hzero, decide_eq_false h]

theorem length_negG1Gen : negG1Gen.length = 128 := by
  rw [negG1Gen, List.length_append, coordinate, coordinate, length_bigEndian, length_bigEndian]

theorem verify_eq [DecidableEq T] (key message sig : Bytes) : verify C key message sig =
    match pairingCheck C.codec₁ C.codec₂ C.e
      (key ++ C.codec₂.encode (hashPoint C message) ++ negG1Gen ++ sig) with
    | none => some false
    | some r => some (r.length = 32 && r[31]? = some 1) := by
  rw [verify, hashToG2_eq, Option.bind_eq_bind, Option.bind_some]
  cases pairingCheck C.codec₁ C.codec₂ C.e
    (key ++ C.codec₂.encode (hashPoint C message) ++ negG1Gen ++ sig) with
  | none => rfl
  | some r => rfl

/-- The pairs that the contract hands to the precompile. -/
theorem decodePairs_input {key : Bytes} (hkey : key.length = 128) (message : Bytes) {sig : Bytes}
    {k : ℕ} (hsig : sig.length = 256 + 384 * k) :
    decodePairs C.codec₁ C.codec₂ (k + 2)
        (key ++ C.codec₂.encode (hashPoint C message) ++ negG1Gen ++ sig) =
      (C.codec₁.decode key).bind fun P => (C.codec₂.decode (sig.take 256)).bind fun S =>
        (decodePairs C.codec₁ C.codec₂ k (sig.drop 256)).map fun extra =>
          (P, hashPoint C message) :: (-C.generator, S) :: extra := by
  have htake : (sig.take 256).length = 256 := by
    rw [List.length_take]
    omega
  have hinput : key ++ C.codec₂.encode (hashPoint C message) ++ negG1Gen ++ sig =
      key ++ (C.codec₂.encode (hashPoint C message) ++
        (negG1Gen ++ (sig.take 256 ++ sig.drop 256))) := by
    rw [List.take_append_drop, List.append_assoc, List.append_assoc]
  rw [hinput, decodePairs_append _ _ hkey (C.codec₂.length_encode _),
    decodePairs_append _ _ length_negG1Gen htake, C.codec₂.decode_encode, C.decode_negG1Gen]
  cases C.codec₁.decode key with
  | none => rfl
  | some P =>
    cases C.codec₂.decode (sig.take 256) with
    | none => rfl
    | some S =>
      cases decodePairs C.codec₁ C.codec₂ k (sig.drop 256) with
      | none => rfl
      | some extra => rfl

/-- The contract checks the equation over all pairs, for a key of the right length. -/
theorem verify_eq_true [DecidableEq T] {key : Bytes} (hkey : key.length = 128)
    (message sig : Bytes) :
    verify C key message sig = some true ↔ Paired C key message sig := by
  have hlen : (key ++ C.codec₂.encode (hashPoint C message) ++ negG1Gen ++ sig).length =
      512 + sig.length := by
    rw [List.length_append, List.length_append, List.length_append, hkey,
      C.codec₂.length_encode, length_negG1Gen]
  rw [verify_eq, pairingCheck, hlen]
  by_cases hfit : sig.length % 384 = 256
  · have hsig : sig.length = 256 + 384 * (sig.length / 384) := by omega
    have hcount : (512 + sig.length) / (128 + 256) = sig.length / 384 + 2 := by omega
    rw [if_neg (by omega), hcount, decodePairs_input C hkey message hsig]
    constructor
    · intro h
      cases hP : C.codec₁.decode key with
      | none =>
        rw [hP] at h
        cases h
      | some P =>
        cases hS : C.codec₂.decode (sig.take 256) with
        | none =>
          rw [hP, hS] at h
          cases h
        | some S =>
          cases hextra : decodePairs C.codec₁ C.codec₂ (sig.length / 384) (sig.drop 256) with
          | none =>
            rw [hP, hS, hextra] at h
            cases h
          | some extra =>
            rw [hP, hS, hextra] at h
            simp only [Option.bind_some, Option.map_some, last_of_bigEndian] at h
            exact ⟨P, S, _, extra, hP, hsig, hS, hextra, of_decide_eq_true (Option.some.inj h)⟩
    · intro ⟨P, S, k, extra, hP, hk, hS, hextra, hsum⟩
      have hdiv : sig.length / 384 = k := by omega
      rw [hdiv, hP, hS, hextra]
      simp only [Option.bind_some, Option.map_some, last_of_bigEndian, hsum, decide_true]
  · rw [if_pos (by omega)]
    constructor
    · intro h
      cases h
    · intro ⟨P, S, k, extra, _, hsig, _⟩
      omega

end

end BlsVerify

end Boule
