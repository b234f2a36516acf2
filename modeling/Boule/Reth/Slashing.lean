import Boule.Dispatch.Wire
import Boule.Lib.Framing
import Mathlib.Data.Nat.Digits.Defs

/-! `Slashing.sol`: the bytes of a vote as the contract puts them together, and as validators sign
them. -/
namespace Boule

/-- A 32-byte array with its bytes. -/
abbrev ByteArray32 := Vector UInt8 32

def u32ToBeBytes (n : UInt32) : Bytes :=
  [(n >>> 24).toUInt8, (n >>> 16).toUInt8, (n >>> 8).toUInt8, n.toUInt8]

/-! ### What validators sign -/

/-- `postcard::to_stdvec` of a vote: its view as a varint and the bytes of its hash. -/
def postcardVote (view : UInt64) (blockHash : ByteArray32) : Bytes :=
  Leb128.encode view.toNat ++ blockHash.toList

/-- `signed::preimage` of a payload that is encoded as `body`; it fails on a domain tag of 2 ^ 32
bytes or more. -/
def signedPreimage (domain : String) (body : Bytes) (chainId : ByteArray32) : Option Bytes :=
  let domain := domain.toUTF8.data.toList
  if domain.length < 2 ^ 32 then
    some (chainId.toList ++ u32ToBeBytes (UInt32.ofNat domain.length) ++ domain ++ body)
  else none

theorem signedPreimage_of_short {domain : String} (h : domain.toUTF8.data.toList.length < 2 ^ 32)
    (body : Bytes) (chainId : ByteArray32) : signedPreimage domain body chainId =
      some (chainId.toList ++ u32ToBeBytes (UInt32.ofNat domain.toUTF8.data.toList.length) ++
        domain.toUTF8.data.toList ++ body) :=
  if_pos h

theorem u32ToBeBytes_eq (n : UInt32) : u32ToBeBytes n = Framing.bigEndian 4 n.toNat := by
  have hbyte : ∀ shift : UInt32, shift.toNat < 32 →
      (n >>> shift).toUInt8 = UInt8.ofNat (n.toNat / 2 ^ shift.toNat) := by
    intro shift hlt
    apply UInt8.toNat_inj.mp
    rw [UInt32.toNat_toUInt8, UInt32.toNat_shiftRight, Nat.mod_eq_of_lt hlt,
      Nat.shiftRight_eq_div_pow, UInt8.toNat_ofNat']
  have hlow : n.toUInt8 = UInt8.ofNat (n.toNat / 1) := by
    apply UInt8.toNat_inj.mp
    rw [UInt32.toNat_toUInt8, UInt8.toNat_ofNat', Nat.div_one]
  have h24 := hbyte 24 (by decide)
  have h16 := hbyte 16 (by decide)
  have h8 := hbyte 8 (by decide)
  unfold u32ToBeBytes
  rw [h24, h16, h8, hlow]
  rfl

theorem u32ToBeBytes_inj {m n : ℕ} (hm : m < 2 ^ 32) (hn : n < 2 ^ 32)
    (h : u32ToBeBytes (UInt32.ofNat m) = u32ToBeBytes (UInt32.ofNat n)) : m = n := by
  rw [u32ToBeBytes_eq, u32ToBeBytes_eq, UInt32.toNat_ofNat_of_lt' hm,
    UInt32.toNat_ofNat_of_lt' hn] at h
  have hmod : m % 2 ^ 32 = n % 2 ^ 32 := Framing.mod_of_bigEndian h
  rwa [Nat.mod_eq_of_lt hm, Nat.mod_eq_of_lt hn] at hmod

theorem signedPreimage_eq_some {domain : String} {body bytes : Bytes} {chainId : ByteArray32} :
    signedPreimage domain body chainId = some bytes ↔
      domain.toUTF8.data.toList.length < 2 ^ 32 ∧ chainId.toList ++
        u32ToBeBytes (UInt32.ofNat domain.toUTF8.data.toList.length) ++
          domain.toUTF8.data.toList ++ body = bytes :=
  Option.ite_none_right_eq_some.trans (and_congr_right fun _ => Option.some_inj)

/-- The bytes determine the domain tag, the body and the chain. -/
theorem signedPreimage_inj {domain domain' : String} {body body' : Bytes}
    {chainId chainId' : ByteArray32} {bytes : Bytes}
    (h : signedPreimage domain body chainId = some bytes)
    (h' : signedPreimage domain' body' chainId' = some bytes) :
    domain = domain' ∧ body = body' ∧ chainId = chainId' := by
  obtain ⟨hlt, hbytes⟩ := signedPreimage_eq_some.mp h
  obtain ⟨hlt', hbytes'⟩ := signedPreimage_eq_some.mp h'
  have heq := hbytes.trans hbytes'.symm
  simp only [List.append_assoc] at heq
  obtain ⟨hchain, heq⟩ := List.append_inj heq (by simp)
  obtain ⟨hlen, heq⟩ := List.append_inj heq rfl
  obtain ⟨hdomain, hbody⟩ := List.append_inj heq (u32ToBeBytes_inj hlt hlt' hlen)
  have hutf8 := ByteArray.ext (Array.toList_inj.mp hdomain)
  exact ⟨String.toByteArray_inj.mp hutf8, hbody, Vector.toList_inj.mp hchain⟩

/-! ### What the contract hashes -/

namespace Slashing

def voteDomain : Bytes := "boule.hotstuff.vote.v1".toUTF8.data.toList

theorem toNat_shiftRight (v : UInt64) : (v >>> 7).toNat = v.toNat / 128 := by
  rw [UInt64.toNat_shiftRight]
  exact Nat.shiftRight_eq_div_pow v.toNat 7

theorem toNat_lowBits (v : UInt64) : ((v &&& 0x7f) ||| 0x80).toNat = v.toNat % 128 + 128 := by
  have hlow : v.toNat &&& 127 = v.toNat % 128 := Nat.and_two_pow_sub_one_eq_mod v.toNat 7
  have hlt : v.toNat % 128 < 2 ^ 7 := Nat.mod_lt _ (by omega)
  have hor : 128 + v.toNat % 128 = 128 ||| v.toNat % 128 := Nat.two_pow_add_eq_or_of_lt hlt 1
  rw [UInt64.toNat_or, UInt64.toNat_and]
  show (v.toNat &&& 127) ||| 128 = _
  rw [hlow, Nat.or_comm]
  omega

/-- The loop of `_varint`, with the bytes so far. -/
def varintLoop (v : UInt64) (out : Bytes) : Bytes :=
  if 0x80 ≤ v then varintLoop (v >>> 7) (out ++ [((v &&& 0x7f) ||| 0x80).toUInt8])
  else out ++ [v.toUInt8]
termination_by v.toNat
decreasing_by
  rename_i hlarge
  have hle : 128 ≤ v.toNat := UInt64.le_iff_toNat_le.mp hlarge
  have hnext := toNat_shiftRight v
  omega

def varint (v : UInt64) : Bytes := varintLoop v []

/-- The callers have checked that `chainId` has 32 bytes. -/
def votePreimage (chainId : Bytes) (view : UInt64) (blockHash : ByteArray32) : Bytes :=
  chainId ++ u32ToBeBytes (UInt32.ofNat voteDomain.length) ++ voteDomain ++ varint view ++
    blockHash.toList

/-- The loop appends the LEB128 encoding of what is left. -/
theorem varintLoop_eq (v : UInt64) (out : Bytes) :
    varintLoop v out = out ++ Leb128.encode v.toNat := by
  fun_induction varintLoop v out with
  | case1 v out hlarge ih =>
    have hle : 128 ≤ v.toNat := UInt64.le_iff_toNat_le.mp hlarge
    have hbyte : ((v &&& 0x7f) ||| 0x80).toUInt8 = UInt8.ofNat (v.toNat % 128 + 128) := by
      rw [← toNat_lowBits]
      rfl
    rw [ih, toNat_shiftRight, Leb128.encode_of_le hle, hbyte, List.append_assoc,
      List.singleton_append]
  | case2 v out hsmall =>
    have hlt : v.toNat < 128 := by
      have hnot := mt UInt64.le_iff_toNat_le.mpr hsmall
      exact Nat.lt_of_not_le hnot
    rw [Leb128.encode_of_lt hlt]
    rfl

theorem votePreimage_eq (chainId : Bytes) (view : UInt64) (blockHash : ByteArray32) :
    votePreimage chainId view blockHash =
      chainId ++ u32ToBeBytes (UInt32.ofNat voteDomain.length) ++ voteDomain ++
        postcardVote view blockHash := by
  unfold votePreimage postcardVote varint
  rw [varintLoop_eq, List.nil_append, List.append_assoc _ (Leb128.encode _)]

theorem votePreimage_inj {chainId chainId' : ByteArray32} {view view' : UInt64}
    {blockHash blockHash' : ByteArray32}
    (h : votePreimage chainId.toList view blockHash =
      votePreimage chainId'.toList view' blockHash') :
    chainId = chainId' ∧ view = view' ∧ blockHash = blockHash' := by
  rw [votePreimage_eq, votePreimage_eq] at h
  simp only [List.append_assoc] at h
  obtain ⟨hchain, h⟩ := List.append_inj h (by simp)
  have hbody := List.append_cancel_left (List.append_cancel_left h)
  obtain ⟨hview, hhash⟩ := Leb128.encode_append_inj hbody
  exact ⟨Vector.toList_inj.mp hchain, UInt64.toNat_inj.mp hview, Vector.toList_inj.mp hhash⟩

end Slashing

/-- The number that stands for a 32-byte array elsewhere. -/
def ByteArray32.toBytes32 (a : ByteArray32) : Bytes32 :=
  Nat.ofDigits 256 (a.toList.reverse.map UInt8.toNat)

theorem ByteArray32.toBytes32_inj {a b : ByteArray32} (h : a.toBytes32 = b.toBytes32) : a = b := by
  have hlt : ∀ (c : ByteArray32), ∀ d ∈ c.toList.reverse.map UInt8.toNat, d < 256 := by
    intro c d hd
    obtain ⟨byte, -, rfl⟩ := List.mem_map.mp hd
    exact byte.toNat_lt
  have hdigits := Nat.ofDigits_inj_of_len_eq (by omega) (by simp) (hlt a) (hlt b) h
  have hreverse := List.map_injective_iff.mpr (fun _ _ he => UInt8.toNat_inj.mp he) hdigits
  exact Vector.toList_inj.mp (List.reverse_injective hreverse)

/-- The contract puts together the bytes that validators sign, and they determine the view and the
hash of the vote. -/
theorem contract_reconstructs_votes (chainId : ByteArray32) (view : UInt64)
    (blockHash : ByteArray32) :
    signedPreimage (SignedPayload.domain (.vote ⟨0, 0⟩)) (postcardVote view blockHash) chainId =
        some (Slashing.votePreimage chainId.toList view blockHash) ∧
      ∀ (chainId' : ByteArray32) view' blockHash',
        Slashing.votePreimage chainId.toList view blockHash =
          Slashing.votePreimage chainId'.toList view' blockHash' ↔
        chainId = chainId' ∧ view = view' ∧ blockHash = blockHash' := by
  have hshort : Slashing.voteDomain.length < 2 ^ 32 := by decide
  refine ⟨?_, fun _ _ _ => ⟨Slashing.votePreimage_inj, fun ⟨hc, hv, hh⟩ => by rw [hc, hv, hh]⟩⟩
  rw [Slashing.votePreimage_eq]
  exact signedPreimage_of_short hshort _ _

/-- The preimages that the rest of the development compares are the same exactly when the bytes
are. -/
theorem votePreimage_eq_iff (chainId chainId' : ByteArray32) (view view' : UInt64)
    (blockHash blockHash' : ByteArray32) :
    votePreimage view.toNat blockHash.toBytes32 chainId.toBytes32 =
        votePreimage view'.toNat blockHash'.toBytes32 chainId'.toBytes32 ↔
      Slashing.votePreimage chainId.toList view blockHash =
        Slashing.votePreimage chainId'.toList view' blockHash' := by
  constructor
  · intro h
    obtain ⟨hchain, -, hpayload⟩ := Preimage.mk.inj h
    obtain ⟨hview, hhash⟩ := Vote.mk.inj (SignedPayload.vote.inj hpayload)
    rw [ByteArray32.toBytes32_inj hchain, UInt64.toNat_inj.mp hview,
      ByteArray32.toBytes32_inj hhash]
  · intro h
    obtain ⟨rfl, rfl, rfl⟩ := Slashing.votePreimage_inj h
    rfl

end Boule
