import Mathlib.Data.Nat.Notation
import Mathlib.Tactic.SplitIfs

/-! Byte strings in hexadecimal, two digits a byte. -/
namespace Boule.Hex

def digit (n : ℕ) : Char := if n < 10 then Char.ofNat (48 + n) else Char.ofNat (87 + n)

/-- The value of a digit, a letter of either case. -/
def value (c : Char) : Option ℕ :=
  if 'A' ≤ c ∧ c ≤ 'F' then some (c.toNat - 55)
  else if 'a' ≤ c ∧ c ≤ 'f' then some (c.toNat - 87)
  else if '0' ≤ c ∧ c ≤ '9' then some (c.toNat - 48)
  else none

def encode (bytes : List UInt8) : List Char :=
  bytes.flatMap fun b => [digit (b.toNat / 16), digit (b.toNat % 16)]

def decode : List Char → Option (List UInt8)
  | [] => some []
  | [_] => none
  | high :: low :: rest => do
    let h ← value high
    let l ← value low
    let bytes ← decode rest
    return UInt8.ofNat (h * 16 + l) :: bytes

/-- `trim_start_matches` with `0x`: it is removed as often as it stands there. -/
def trimPrefixes : List Char → List Char
  | '0' :: 'x' :: rest => trimPrefixes rest
  | s => s

/-- What has a value is a digit or a letter up to `f`. -/
theorem value_eq_some {c : Char} {n : ℕ} (h : value c = some n) :
    n < 16 ∧ c.toNat ≤ 102 ∧ (c.toNat = 48 ↔ n = 0) ∧ 48 ≤ c.toNat := by
  have hle : ∀ a b : Char, a ≤ b ↔ a.toNat ≤ b.toNat := fun a b => by
    rw [Char.le_def, UInt32.le_iff_toNat_le]
    rfl
  have hA : 'A'.toNat = 65 := rfl
  have hF : 'F'.toNat = 70 := rfl
  have ha : 'a'.toNat = 97 := rfl
  have hf : 'f'.toNat = 102 := rfl
  have h0 : '0'.toNat = 48 := rfl
  have h9 : '9'.toNat = 57 := rfl
  unfold value at h
  simp only [hle, hA, hF, ha, hf, h0, h9] at h
  split_ifs at h with hupper hlower hdigit
  · have hn := Option.some.inj h
    omega
  · have hn := Option.some.inj h
    omega
  · have hn := Option.some.inj h
    omega

/-- Two digits a byte. -/
theorem map_value_of_decode {text : List Char} {bytes : List UInt8}
    (h : decode text = some bytes) :
    text.map value = (bytes.flatMap fun b => [b.toNat / 16, b.toNat % 16]).map some := by
  induction text using decode.induct generalizing bytes with
  | case1 =>
    have hnil : [] = bytes := Option.some.inj h
    rw [← hnil]
    rfl
  | case2 c => cases h
  | case3 high low rest ih =>
    obtain ⟨a, ha, h⟩ := Option.bind_eq_some_iff.mp h
    obtain ⟨b, hb, h⟩ := Option.bind_eq_some_iff.mp h
    obtain ⟨tail, htail, h⟩ := Option.bind_eq_some_iff.mp h
    have hcons : UInt8.ofNat (a * 16 + b) :: tail = bytes := Option.some.inj h
    obtain ⟨ha16, -⟩ := value_eq_some ha
    obtain ⟨hb16, -⟩ := value_eq_some hb
    have hbyte : (UInt8.ofNat (a * 16 + b)).toNat = a * 16 + b := by
      rw [UInt8.toNat_ofNat']
      omega
    have hdiv : (a * 16 + b) / 16 = a := by omega
    have hmod : (a * 16 + b) % 16 = b := by omega
    rw [← hcons, List.map_cons, List.map_cons, ha, hb, ih htail, List.flatMap_cons, hbyte, hdiv,
      hmod]
    rfl

theorem value_digit {n : ℕ} (h : n < 16) : value (digit n) = some n := by
  revert h
  revert n
  decide

theorem digit_ne_x {n : ℕ} (h : n < 16) : digit n ≠ 'x' := by
  revert h
  revert n
  decide

theorem encode_cons (b : UInt8) (bytes : List UInt8) :
    encode (b :: bytes) = digit (b.toNat / 16) :: digit (b.toNat % 16) :: encode bytes := rfl

theorem decode_encode (bytes : List UInt8) : decode (encode bytes) = some bytes := by
  induction bytes with
  | nil => rfl
  | cons b bytes ih =>
    have hb := b.toNat_lt
    have hhigh := value_digit (n := b.toNat / 16) (by omega)
    have hlow := value_digit (n := b.toNat % 16) (by omega)
    have hbyte : b.toNat / 16 * 16 + b.toNat % 16 = b.toNat := by omega
    rw [encode_cons, decode, hhigh, hlow, ih]
    show some (UInt8.ofNat (b.toNat / 16 * 16 + b.toNat % 16) :: bytes) = some (b :: bytes)
    rw [hbyte, UInt8.ofNat_toNat]

/-- No digit is an `x`, so that one prefix is removed. -/
theorem trimPrefixes_encode (bytes : List UInt8) :
    trimPrefixes ('0' :: 'x' :: encode bytes) = encode bytes := by
  cases bytes with
  | nil => rfl
  | cons b bytes =>
    have hb := b.toNat_lt
    have hx := digit_ne_x (n := b.toNat % 16) (by omega)
    rw [encode_cons, trimPrefixes, trimPrefixes]
    intro rest hdigits
    have hsecond := (List.cons.inj hdigits).2
    exact hx (List.cons.inj hsecond).1

end Boule.Hex
