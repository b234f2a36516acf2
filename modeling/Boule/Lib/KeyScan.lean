import Boule.Lib.Framing
import Boule.Lib.Table
import Mathlib.Data.List.Lex
import Mathlib.Data.List.TakeWhile
import Mathlib.Data.UInt
import Mathlib.Tactic.NormNum
import Mathlib.Tactic.Ring

/-! Rows under byte keys that are scanned by prefix in the order of their keys, and families of keys
that number their rows in big-endian. -/
namespace Boule.KeyScan
open Framing

/-! ### Numbers in big-endian -/

def fromBigEndian (bytes : List UInt8) : ℕ := bytes.foldl (fun n b => n * 256 + b.toNat) 0

theorem foldl_bigEndian (width a n : ℕ) :
    (bigEndian width n).foldl (fun n b => n * 256 + b.toNat) a =
      a * 256 ^ width + n % 256 ^ width := by
  induction width generalizing a with
  | zero => simp [bigEndian, Nat.mod_one]
  | succ width ih =>
    rw [bigEndian, List.foldl_cons, ih, UInt8.toNat_ofNat', pow_succ 256, Nat.mod_mul]
    ring

theorem fromBigEndian_bigEndian {width n : ℕ} (h : n < 256 ^ width) :
    fromBigEndian (bigEndian width n) = n := by
  rw [fromBigEndian, foldl_bigEndian, Nat.zero_mul, Nat.zero_add, Nat.mod_eq_of_lt h]

theorem foldl_fromBigEndian (bytes : List UInt8) (a : ℕ) :
    bytes.foldl (fun n b => n * 256 + b.toNat) a =
      a * 256 ^ bytes.length + fromBigEndian bytes := by
  induction bytes generalizing a with
  | nil => simp [fromBigEndian]
  | cons b bytes ih =>
    rw [fromBigEndian, List.foldl_cons, List.foldl_cons, ih, ih (0 * 256 + b.toNat),
      List.length_cons, pow_succ]
    ring

theorem fromBigEndian_cons (b : UInt8) (bytes : List UInt8) :
    fromBigEndian (b :: bytes) = b.toNat * 256 ^ bytes.length + fromBigEndian bytes := by
  rw [fromBigEndian, List.foldl_cons, foldl_fromBigEndian, Nat.zero_mul, Nat.zero_add]

theorem fromBigEndian_append (bytes bytes' : List UInt8) :
    fromBigEndian (bytes ++ bytes') =
      fromBigEndian bytes * 256 ^ bytes'.length + fromBigEndian bytes' := by
  have hfold := foldl_fromBigEndian bytes' (fromBigEndian bytes)
  rwa [fromBigEndian, ← List.foldl_append] at hfold

theorem fromBigEndian_eq_zero_iff (bytes : List UInt8) :
    fromBigEndian bytes = 0 ↔ ∀ b ∈ bytes, b = 0 := by
  induction bytes with
  | nil => simp [fromBigEndian]
  | cons b bytes ih =>
    have hpos : 0 < 256 ^ bytes.length := Nat.pow_pos (by norm_num)
    have hzero : b.toNat = 0 ↔ b = 0 := UInt8.toNat_inj (b := 0)
    rw [fromBigEndian_cons, Nat.add_eq_zero_iff, Nat.mul_eq_zero, or_iff_left hpos.ne', hzero, ih,
      List.forall_mem_cons]

theorem fromBigEndian_lt (bytes : List UInt8) : fromBigEndian bytes < 256 ^ bytes.length := by
  induction bytes with
  | nil => simp [fromBigEndian]
  | cons b bytes ih =>
    have hb : b.toNat < 256 := b.toNat_lt
    rw [fromBigEndian_cons, List.length_cons, pow_succ]
    calc b.toNat * 256 ^ bytes.length + fromBigEndian bytes
        < b.toNat * 256 ^ bytes.length + 256 ^ bytes.length := Nat.add_lt_add_left ih _
      _ = (b.toNat + 1) * 256 ^ bytes.length := by ring
      _ ≤ 256 * 256 ^ bytes.length := Nat.mul_le_mul_right _ hb
      _ = 256 ^ bytes.length * 256 := Nat.mul_comm _ _

/-- The bytes depend on the number modulo their range only. -/
theorem bigEndian_add_mul (width n c : ℕ) :
    bigEndian width (c * 256 ^ width + n) = bigEndian width n := by
  induction width generalizing c with
  | zero => rfl
  | succ width ih =>
    have hsplit : c * 256 ^ (width + 1) + n = c * 256 * 256 ^ width + n := by ring
    rw [bigEndian, bigEndian, hsplit, ih, Nat.mul_comm (c * 256),
      Nat.mul_add_div (Nat.pow_pos (by norm_num))]
    congr 1
    apply UInt8.toNat_inj.mp
    rw [UInt8.toNat_ofNat', UInt8.toNat_ofNat', Nat.mul_add_mod']

theorem bigEndian_fromBigEndian (bytes : List UInt8) :
    bigEndian bytes.length (fromBigEndian bytes) = bytes := by
  induction bytes with
  | nil => rfl
  | cons b bytes ih =>
    have hpos : 0 < 256 ^ bytes.length := Nat.pow_pos (by norm_num)
    rw [List.length_cons, bigEndian, fromBigEndian_cons, bigEndian_add_mul, ih, Nat.mul_comm,
      Nat.mul_add_div hpos, Nat.div_eq_of_lt (fromBigEndian_lt bytes), Nat.add_zero]
    congr 1
    exact UInt8.ofNat_toNat

theorem digits_lt_iff {B a b x y : ℕ} (ha : a < B) (hb : b < B) :
    a + B * x < b + B * y ↔ x < y ∨ x = y ∧ a < b := by
  rcases lt_trichotomy x y with hlt | rfl | hgt
  · have hstep : B * x + B ≤ B * y := by
      rw [← Nat.mul_succ]
      exact Nat.mul_le_mul_left B hlt
    exact iff_of_true (by omega) (.inl hlt)
  · simp
  · have hstep : B * y + B ≤ B * x := by
      rw [← Nat.mul_succ]
      exact Nat.mul_le_mul_left B hgt
    exact iff_of_false (by omega) (by omega)

/-- The order of the bytes is the order of the numbers. -/
theorem bigEndian_lt_iff_mod (width m n : ℕ) :
    bigEndian width m < bigEndian width n ↔ m % 256 ^ width < n % 256 ^ width := by
  induction width with
  | zero => simp [bigEndian, Nat.mod_one]
  | succ width ih =>
    have hpos : 0 < 256 ^ width := Nat.pow_pos (by norm_num)
    rw [bigEndian, bigEndian, List.cons_lt_cons_iff, ih, UInt8.lt_iff_toNat_lt, ← UInt8.toNat_inj,
      UInt8.toNat_ofNat', UInt8.toNat_ofNat', pow_succ 256, Nat.mod_mul, Nat.mod_mul,
      digits_lt_iff (Nat.mod_lt m hpos) (Nat.mod_lt n hpos)]

theorem append_lt_append_iff (pre s t : List UInt8) : pre ++ s < pre ++ t ↔ s < t := by
  induction pre with
  | nil => rfl
  | cons b pre ih => simp [ih]

/-! ### Families of keys -/

/-- The key of number `n` in the family of a prefix. -/
def numberKey (pre : List UInt8) (width n : ℕ) : List UInt8 := pre ++ bigEndian width n

/-- The number of a key; none if it has another prefix or another length. -/
def readNumberKey (pre : List UInt8) (width : ℕ) (key : List UInt8) : Option ℕ :=
  if pre.isPrefixOf key then
    let suffix := key.drop pre.length
    if suffix.length = width then some (fromBigEndian suffix) else none
  else none

section
variable {pre : List UInt8} {width : ℕ}

theorem prefix_numberKey (n : ℕ) : pre <+: numberKey pre width n := List.prefix_append _ _

theorem numberKey_lt_iff {m n : ℕ} (hm : m < 256 ^ width) (hn : n < 256 ^ width) :
    numberKey pre width m < numberKey pre width n ↔ m < n := by
  rw [numberKey, numberKey, append_lt_append_iff, bigEndian_lt_iff_mod, Nat.mod_eq_of_lt hm,
    Nat.mod_eq_of_lt hn]

theorem readNumberKey_numberKey {n : ℕ} (h : n < 256 ^ width) :
    readNumberKey pre width (numberKey pre width n) = some n := by
  unfold readNumberKey
  rw [if_pos (List.isPrefixOf_iff_prefix.mpr (prefix_numberKey n)), numberKey, List.drop_left]
  simp only
  rw [if_pos (length_bigEndian width n), fromBigEndian_bigEndian h]

theorem numberKey_inj {m n : ℕ} (hm : m < 256 ^ width) (hn : n < 256 ^ width) :
    numberKey pre width m = numberKey pre width n ↔ m = n := by
  constructor
  · intro h
    have hread := congrArg (readNumberKey pre width) h
    rw [readNumberKey_numberKey hm, readNumberKey_numberKey hn] at hread
    exact Option.some.inj hread
  · exact congrArg _

theorem readNumberKey_eq_some {key : List UInt8} {n : ℕ} :
    readNumberKey pre width key = some n ↔ n < 256 ^ width ∧ key = numberKey pre width n := by
  constructor
  · intro h
    unfold readNumberKey at h
    split_ifs at h with hpre
    obtain ⟨suffix, rfl⟩ := List.isPrefixOf_iff_prefix.mp hpre
    simp only [List.drop_left] at h
    split_ifs at h with hwidth
    obtain rfl := Option.some.inj h
    rw [← hwidth]
    refine ⟨fromBigEndian_lt suffix, ?_⟩
    rw [numberKey, bigEndian_fromBigEndian]
  · rintro ⟨hn, rfl⟩
    exact readNumberKey_numberKey hn

end

/-! ### Scans -/

section
variable {V : Type} {rows : Table (List UInt8) V} {pre : List UInt8}

/-- The rows whose keys have a prefix, in the order of their keys. -/
def scanPrefix (rows : Table (List UInt8) V) (pre : List UInt8) : List (List UInt8 × V) :=
  (rows.toList.filter fun e => pre.isPrefixOf e.1).insertionSort fun a b => a.1 ≤ b.1

theorem mem_scanPrefix {e : List UInt8 × V} :
    e ∈ scanPrefix rows pre ↔ pre <+: e.1 ∧ rows.get? e.1 = some e.2 := by
  unfold scanPrefix
  rw [List.mem_insertionSort, List.mem_filter, List.isPrefixOf_iff_prefix, and_comm,
    ← Table.mem_toList]

theorem sorted_scanPrefix (rows : Table (List UInt8) V) (pre : List UInt8) :
    (scanPrefix rows pre).Pairwise fun a b => a.1 ≤ b.1 := by
  have htotal : Std.Total fun a b : List UInt8 × V => a.1 ≤ b.1 :=
    ⟨fun a b => List.le_total a.1 b.1⟩
  have htrans : IsTrans (List UInt8 × V) fun a b => a.1 ≤ b.1 := ⟨fun a b c => List.le_trans⟩
  exact List.pairwise_insertionSort _ _

/-- What comes before all that stops a scan is scanned. -/
theorem mem_takeWhile_of_pairwise {α : Type} {R : α → α → Prop} {p : α → Bool} {l : List α}
    {a : α} (hl : l.Pairwise R) (ha : a ∈ l) (hself : p a = true) (hp : ∀ b, R b a → p b = true) :
    a ∈ l.takeWhile p := by
  induction l with
  | nil => cases ha
  | cons b l ih =>
    obtain ⟨hb, hl⟩ := List.pairwise_cons.mp hl
    rcases List.mem_cons.mp ha with rfl | ha
    · rw [List.takeWhile_cons_of_pos hself]
      exact List.mem_cons_self
    · rw [List.takeWhile_cons_of_pos (hp b (hb a ha))]
      exact List.mem_cons_of_mem _ (ih hl ha)

/-- The rows of a scan up to the first one that is numbered `floor` or higher. -/
def scanBelow (rows : Table (List UInt8) V) (pre : List UInt8) (width floor : ℕ) :
    List (List UInt8 × V) :=
  (scanPrefix rows pre).takeWhile fun e => (readNumberKey pre width e.1).all (· < floor)

/-- A scan that stops at the first number which is too high finds all lower ones. -/
theorem mem_scanBelow {width floor n : ℕ} (hn : n < 256 ^ width) {v : V} :
    (numberKey pre width n, v) ∈ scanBelow rows pre width floor ↔
      n < floor ∧ rows.get? (numberKey pre width n) = some v := by
  unfold scanBelow
  constructor
  · intro h
    have htest := List.mem_takeWhile_imp h
    rw [readNumberKey_numberKey hn, Option.all_some, decide_eq_true_iff] at htest
    exact ⟨htest, (mem_scanPrefix.mp (List.takeWhile_subset _ h)).2⟩
  · rintro ⟨hfloor, hget⟩
    refine mem_takeWhile_of_pairwise (sorted_scanPrefix rows pre)
      (mem_scanPrefix.mpr ⟨prefix_numberKey n, hget⟩) ?_ ?_
    · rw [readNumberKey_numberKey hn, Option.all_some, decide_eq_true_iff]
      exact hfloor
    · rintro ⟨key, v'⟩ hle
      rw [Option.all_eq_true]
      intro m hm
      obtain ⟨hlt, rfl⟩ := readNumberKey_eq_some.mp hm
      have hnot : ¬ n < m := fun hless =>
        List.not_lt.mpr hle ((numberKey_lt_iff hn hlt).mpr hless)
      exact decide_eq_true (by omega)

end

end Boule.KeyScan
