import Boule.Lib.Hex
import Boule.Lib.KeyScan
import Boule.Reth.Staking
import Mathlib.Data.String.Basic

/-! The amount of a staking log, read from the text that the execution node answers with. -/
namespace Boule

/-- `str::len` -/
def utf8Len (text : List Char) : ℕ := (text.map Char.utf8Size).sum

/-- `str::split_at`; `none` where the offset is inside a character, and the code panics. -/
def splitAtByte : List Char → ℕ → Option (List Char × List Char)
  | text, 0 => some ([], text)
  | [], _ + 1 => none
  | c :: text, n + 1 =>
    if n + 1 < c.utf8Size then none
    else (splitAtByte text (n + 1 - c.utf8Size)).map fun parts => (c :: parts.1, parts.2)

/-- A digit more of a `u64`; `none` where there is no digit or the number overflows. -/
def pushDigit (n : ℕ) (c : Char) : Option ℕ :=
  (Hex.value c).bind fun digit => if n * 16 + digit < 2 ^ 64 then some (n * 16 + digit) else none

/-- `u64::from_str_radix(text, 16)`: no digits are an error, and a plus sign may stand in front. -/
def fromStrRadix16 : List Char → Option ℕ
  | [] => none
  | ['+'] => none
  | '+' :: digits => digits.foldlM pushDigit 0
  | digits => digits.foldlM pushDigit 0

/-- `data_word_to_u64` of the ledger's side, on the text of the data; `none` is a panic. -/
def dataTextToU64 (data : String) : Option ℕ :=
  let h := Hex.trimPrefixes data.toList
  if utf8Len h ≤ 16 then some ((fromStrRadix16 h).getD 0)
  else (splitAtByte h (utf8Len h - 16)).map fun parts =>
    if parts.1.any (· ≠ '0') then 2 ^ 64 - 1 else (fromStrRadix16 parts.2).getD 0

theorem fromDigits_lt {base : ℕ} {digits : List ℕ} (h : ∀ d ∈ digits, d < base) :
    fromDigits base digits < base ^ digits.length := by
  have hloop : ∀ n, digits.foldl (fun n d => n * base + d) n < (n + 1) * base ^ digits.length := by
    induction digits with
    | nil => intro n; simp
    | cons d rest ih =>
      intro n
      have hd := h d (List.mem_cons_self ..)
      have hrest := ih (fun e he => h e (List.mem_cons_of_mem _ he)) (n * base + d)
      rw [List.foldl_cons, List.length_cons, pow_succ]
      calc rest.foldl (fun n d => n * base + d) (n * base + d)
          < (n * base + d + 1) * base ^ rest.length := hrest
        _ ≤ ((n + 1) * base) * base ^ rest.length :=
          Nat.mul_le_mul_right _ (by rw [Nat.add_mul]; omega)
        _ = (n + 1) * (base ^ rest.length * base) := by ring
  have hzero := hloop 0
  rwa [Nat.zero_add, Nat.one_mul] at hzero

/-! ### Hexadecimal text -/

/-- Every character is a digit. -/
def HexText (text : List Char) (digits : List ℕ) : Prop :=
  text.map Hex.value = digits.map some

namespace HexText
variable {text : List Char} {digits : List ℕ}

theorem length_eq (h : HexText text digits) : text.length = digits.length := by
  have hlen := congrArg List.length h
  rwa [List.length_map, List.length_map] at hlen

theorem cons_inv {c : Char} (h : HexText (c :: text) digits) :
    ∃ d rest, digits = d :: rest ∧ Hex.value c = some d ∧ HexText text rest := by
  cases digits with
  | nil => cases h
  | cons d rest =>
    obtain ⟨hc, hrest⟩ := List.cons.inj h
    exact ⟨d, rest, rfl, hc, hrest⟩

theorem utf8Size_eq_one {c : Char} {d : ℕ} (h : Hex.value c = some d) : c.utf8Size = 1 := by
  obtain ⟨-, hle, -⟩ := Hex.value_eq_some h
  rw [Char.utf8Size_eq_one_iff, UInt32.le_iff_toNat_le]
  exact hle.trans (by decide)

theorem utf8Len_eq (h : HexText text digits) : utf8Len text = text.length := by
  induction text generalizing digits with
  | nil => rfl
  | cons c text ih =>
    obtain ⟨d, rest, -, hc, hrest⟩ := h.cons_inv
    have htail := ih hrest
    unfold utf8Len at htail ⊢
    rw [List.map_cons, List.sum_cons, htail, utf8Size_eq_one hc, List.length_cons, Nat.add_comm]

theorem splitAtByte_eq (h : HexText text digits) {n : ℕ} (hn : n ≤ text.length) :
    splitAtByte text n = some (text.take n, text.drop n) := by
  induction text generalizing digits n with
  | nil =>
    obtain rfl : n = 0 := Nat.le_zero.mp hn
    rfl
  | cons c text ih =>
    obtain ⟨d, rest, -, hc, hrest⟩ := h.cons_inv
    cases n with
    | zero => rfl
    | succ n =>
      rw [splitAtByte, utf8Size_eq_one hc, if_neg (by omega), Nat.add_sub_cancel,
        ih hrest (Nat.le_of_succ_le_succ hn)]
      rfl

theorem take (h : HexText text digits) (n : ℕ) : HexText (text.take n) (digits.take n) := by
  unfold HexText at h ⊢
  rw [List.map_take, List.map_take, h]

theorem drop (h : HexText text digits) (n : ℕ) : HexText (text.drop n) (digits.drop n) := by
  unfold HexText at h ⊢
  rw [List.map_drop, List.map_drop, h]

/-- A digit is the character `0` exactly when it is zero. -/
theorem any_ne_zero (h : HexText text digits) :
    text.any (· ≠ '0') = digits.any (· ≠ 0) := by
  induction text generalizing digits with
  | nil =>
    have hnil : digits = [] := List.eq_nil_of_length_eq_zero h.length_eq.symm
    rw [hnil]
    rfl
  | cons c text ih =>
    obtain ⟨d, rest, rfl, hc, hrest⟩ := h.cons_inv
    obtain ⟨-, -, hzero, -⟩ := Hex.value_eq_some hc
    have hchar : c = '0' ↔ c.toNat = 48 := Char.toNat_inj.symm
    rw [List.any_cons, List.any_cons, ih hrest]
    simp only [ne_eq, hchar, hzero]

/-- The text does not begin with a prefix of its own. -/
theorem trimPrefixes_eq (h : HexText text digits) :
    Hex.trimPrefixes ('0' :: 'x' :: text) = text := by
  rw [Hex.trimPrefixes]
  unfold Hex.trimPrefixes
  split
  · obtain ⟨d, rest, -, -, hrest⟩ := h.cons_inv
    obtain ⟨d', rest', -, hx, -⟩ := hrest.cons_inv
    cases hx
  · rfl

/-- Digits that fit are added up. -/
theorem foldlM_pushDigit (h : HexText text digits) (n : ℕ)
    (hfit : digits.foldl (fun n d => n * 16 + d) n < 2 ^ 64) :
    text.foldlM pushDigit n = some (digits.foldl (fun n d => n * 16 + d) n) := by
  have hgrows : ∀ (ds : List ℕ) (m : ℕ), m ≤ ds.foldl (fun n d => n * 16 + d) m := by
    intro ds
    induction ds with
    | nil => exact fun m => Nat.le_refl m
    | cons d ds ih =>
      intro m
      have hle := ih (m * 16 + d)
      rw [List.foldl_cons]
      omega
  induction text generalizing digits n with
  | nil =>
    have hnil : digits = [] := List.eq_nil_of_length_eq_zero h.length_eq.symm
    rw [hnil]
    rfl
  | cons c text ih =>
    obtain ⟨d, rest, rfl, hc, hrest⟩ := h.cons_inv
    rw [List.foldl_cons] at hfit ⊢
    have hstep : pushDigit n c = some (n * 16 + d) := by
      rw [pushDigit, hc, Option.bind_some, if_pos ((hgrows rest _).trans_lt hfit)]
    rw [List.foldlM_cons, hstep]
    exact ih hrest (n * 16 + d) hfit

theorem digits_lt (h : HexText text digits) : ∀ d ∈ digits, d < 16 := by
  induction text generalizing digits with
  | nil =>
    have hnil : digits = [] := List.eq_nil_of_length_eq_zero h.length_eq.symm
    rw [hnil]
    exact fun d hd => absurd hd List.not_mem_nil
  | cons c text ih =>
    obtain ⟨d, rest, rfl, hc, hrest⟩ := h.cons_inv
    intro e he
    obtain rfl | he := List.mem_cons.mp he
    · exact (Hex.value_eq_some hc).1
    · exact ih hrest e he

/-- At most 16 digits are a `u64`; no digits are an error, and zero. -/
theorem fromStrRadix16_eq (h : HexText text digits) (hlen : text.length ≤ 16) :
    (fromStrRadix16 text).getD 0 = fromDigits 16 digits := by
  have hfit : fromDigits 16 digits < 2 ^ 64 := by
    have hlt := fromDigits_lt h.digits_lt
    rw [h.length_eq] at hlen
    calc fromDigits 16 digits < 16 ^ digits.length := hlt
      _ ≤ 16 ^ 16 := Nat.pow_le_pow_right (by omega) hlen
      _ = 2 ^ 64 := by norm_num
  have hdigits := h.foldlM_pushDigit 0 hfit
  cases text with
  | nil =>
    have hnil : digits = [] := List.eq_nil_of_length_eq_zero h.length_eq.symm
    rw [hnil]
    rfl
  | cons c text =>
    obtain ⟨d, rest, -, hc, -⟩ := h.cons_inv
    have hplus : c ≠ '+' := by
      rintro rfl
      cases hc
    have hparse : fromStrRadix16 (c :: text) = (c :: text).foldlM pushDigit 0 := by
      unfold fromStrRadix16
      split
      · rename_i heq
        cases heq
      · rename_i heq
        exact absurd (List.cons.inj heq).1 hplus
      · rename_i heq
        exact absurd (List.cons.inj heq).1 hplus
      · rfl
    rw [hparse, hdigits, Option.getD_some]
    rfl

theorem dataTextToU64_eq (h : HexText text digits) {data : String}
    (hdata : data.toList = '0' :: 'x' :: text) :
    dataTextToU64 data = some (hexWordToU64 digits) := by
  have hlen := h.length_eq
  unfold dataTextToU64 hexWordToU64
  simp only [hdata, h.trimPrefixes_eq, h.utf8Len_eq]
  by_cases hshort : text.length ≤ 16
  · rw [if_pos hshort, if_pos (by omega), h.fromStrRadix16_eq hshort]
  · have hlow := (h.drop (text.length - 16)).fromStrRadix16_eq (by rw [List.length_drop]; omega)
    have hhigh := (h.take (text.length - 16)).any_ne_zero
    rw [if_neg hshort, if_neg (by omega), h.splitAtByte_eq (Nat.sub_le _ _), Option.map_some,
      hlow, hhigh, hlen]

end HexText

/-! ### The two sides -/

/-- The number, or the greatest `u64` where it does not fit. -/
theorem dataWordToU64_eq (data : Bytes) :
    dataWordToU64 data = if KeyScan.fromBigEndian data < 2 ^ 64 then KeyScan.fromBigEndian data
      else 2 ^ 64 - 1 := by
  have hbytes : ∀ d : Bytes, fromDigits 256 (d.map UInt8.toNat) = KeyScan.fromBigEndian d :=
    fun d => List.foldl_map
  have hlt := KeyScan.fromBigEndian_lt data
  have hword : (256 : ℕ) ^ 8 = 2 ^ 64 := by norm_num
  unfold dataWordToU64
  by_cases hshort : data.length < 8
  · have hfit : KeyScan.fromBigEndian data < 2 ^ 64 := by
      calc KeyScan.fromBigEndian data < 256 ^ data.length := hlt
        _ ≤ 256 ^ 8 := Nat.pow_le_pow_right (by norm_num) hshort.le
        _ = 2 ^ 64 := hword
    rw [if_pos hshort, if_pos hfit, hbytes]
  · have hsplit : KeyScan.fromBigEndian data =
        KeyScan.fromBigEndian (data.take (data.length - 8)) * 2 ^ 64 +
          KeyScan.fromBigEndian (data.drop (data.length - 8)) := by
      have hlow : (data.drop (data.length - 8)).length = 8 := by
        rw [List.length_drop]
        omega
      have happend := KeyScan.fromBigEndian_append (data.take (data.length - 8))
        (data.drop (data.length - 8))
      rwa [List.take_append_drop, hlow, hword] at happend
    have hlow : KeyScan.fromBigEndian (data.drop (data.length - 8)) < 2 ^ 64 := by
      have hlt8 := KeyScan.fromBigEndian_lt (data.drop (data.length - 8))
      have hlen : (data.drop (data.length - 8)).length = 8 := by
        rw [List.length_drop]
        omega
      rwa [hlen, hword] at hlt8
    have hhigh := KeyScan.fromBigEndian_eq_zero_iff (data.take (data.length - 8))
    rw [if_neg hshort, hbytes]
    by_cases hzero : ∀ b ∈ data.take (data.length - 8), b = 0
    · have hany : (data.take (data.length - 8)).any (· ≠ 0) = false := by
        rw [List.any_eq_false]
        intro b hb
        simp [hzero b hb]
      rw [hhigh.mpr hzero, Nat.zero_mul, Nat.zero_add] at hsplit
      rw [hany, hsplit, if_pos hlow]
      rfl
    · have hany : (data.take (data.length - 8)).any (· ≠ 0) = true := by
        rw [List.any_eq_true]
        push Not at hzero
        obtain ⟨b, hb, hne⟩ := hzero
        exact ⟨b, hb, decide_eq_true hne⟩
      have hpos : KeyScan.fromBigEndian (data.take (data.length - 8)) ≠ 0 :=
        fun he => hzero (hhigh.mp he)
      rw [hany, if_pos rfl, if_neg (by omega)]

/-- Both sides read the number that the data stands for, whatever the case of the digits. -/
theorem data_words_agree {data : String} {text : List Char} {bytes : Bytes}
    (hdata : data.toList = '0' :: 'x' :: text) (hbytes : Hex.decode text = some bytes) :
    dataTextToU64 data = some (dataWordToU64 bytes) ∧
      dataWordToU64 bytes = if KeyScan.fromBigEndian bytes < 2 ^ 64
        then KeyScan.fromBigEndian bytes else 2 ^ 64 - 1 := by
  have hdigits : HexText text (hexDigits bytes) := Hex.map_value_of_decode hbytes
  refine ⟨?_, dataWordToU64_eq bytes⟩
  rw [hdigits.dataTextToU64_eq hdata, hexWordToU64_hexDigits]

namespace Sample

/-- More than eight bytes, with digits of either case. -/
theorem data_words_agree_on_mixed_case :
    dataTextToU64 "0x000000000000000aBcD0" =
        some (dataWordToU64 [0, 0, 0, 0, 0, 0, 0, 0x0a, 0xbc, 0xd0]) ∧
      dataWordToU64 [0, 0, 0, 0, 0, 0, 0, 0x0a, 0xbc, 0xd0] =
        if KeyScan.fromBigEndian [0, 0, 0, 0, 0, 0, 0, 0x0a, 0xbc, 0xd0] < 2 ^ 64
        then KeyScan.fromBigEndian [0, 0, 0, 0, 0, 0, 0, 0x0a, 0xbc, 0xd0] else 2 ^ 64 - 1 :=
  @data_words_agree _
    ['0', '0', '0', '0', '0', '0', '0', '0', '0', '0', '0', '0', '0', '0', '0', 'a', 'B', 'c', 'D',
      '0'] _ (by decide) (by decide)

end Sample
end Boule
