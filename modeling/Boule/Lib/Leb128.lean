import Mathlib.Data.Nat.Notation

/-! LEB128: numbers in bytes of seven bits, the lowest first, every byte but the last with its high
bit set. -/
namespace Boule.Leb128

def encode (n : ℕ) : List UInt8 :=
  if n < 128 then [UInt8.ofNat n] else UInt8.ofNat (n % 128 + 128) :: encode (n / 128)
termination_by n
decreasing_by omega

theorem encode_of_lt {n : ℕ} (h : n < 128) : encode n = [UInt8.ofNat n] := by
  rw [encode, if_pos h]

theorem encode_of_le {n : ℕ} (h : 128 ≤ n) :
    encode n = UInt8.ofNat (n % 128 + 128) :: encode (n / 128) := by
  rw [encode, if_neg (by omega)]

theorem ofNat_inj {m n : ℕ} (hm : m < 256) (hn : n < 256) (h : UInt8.ofNat m = UInt8.ofNat n) :
    m = n := by
  have hnat := congrArg UInt8.toNat h
  rw [UInt8.toNat_ofNat_of_lt' hm, UInt8.toNat_ofNat_of_lt' hn] at hnat
  exact hnat

/-- No encoding is the beginning of another one. -/
theorem encode_append_inj {m n : ℕ} {s t : List UInt8} (h : encode m ++ s = encode n ++ t) :
    m = n ∧ s = t := by
  induction m using Nat.strongRecOn generalizing n with
  | ind m ih =>
    rcases Nat.lt_or_ge m 128 with hm | hm <;> rcases Nat.lt_or_ge n 128 with hn | hn
    · rw [encode_of_lt hm, encode_of_lt hn] at h
      obtain ⟨hbyte, hrest⟩ := List.cons.inj h
      exact ⟨ofNat_inj (by omega) (by omega) hbyte, hrest⟩
    · rw [encode_of_lt hm, encode_of_le hn] at h
      have hbyte := ofNat_inj (by omega) (by omega) (List.cons.inj h).1
      omega
    · rw [encode_of_le hm, encode_of_lt hn] at h
      have hbyte := ofNat_inj (by omega) (by omega) (List.cons.inj h).1
      omega
    · rw [encode_of_le hm, encode_of_le hn] at h
      obtain ⟨hbyte, hrest⟩ := List.cons.inj h
      have hlow := ofNat_inj (by omega) (by omega) hbyte
      obtain ⟨hhigh, hsuffix⟩ := ih (m / 128) (by omega) hrest
      exact ⟨by omega, hsuffix⟩

end Boule.Leb128
