import Boule.Basic
import Mathlib.Data.List.GetD
import Mathlib.Data.Nat.Init

/-! The signer bitmap of a quorum certificate, byte by byte. -/
namespace Boule

/-- `bits` and `len` are independent fields on the wire. -/
structure SignerBitmap where
  bits : List (BitVec 8)
  len : ℕ
  deriving DecidableEq

namespace SignerBitmap

/-- `(byte >> bit) & 1 == 1` -/
def testBit (byte : BitVec 8) (bit : ℕ) : Bool := (byte >>> bit) &&& 1#8 == 1#8

def countOnes (byte : BitVec 8) : ℕ := (List.range 8).countP (testBit byte)

def new (len : ℕ) : SignerBitmap := ⟨List.replicate ((len + 7) / 8) 0#8, len⟩

/-- The source asserts `idx < len`; a call outside leaves the bitmap as it is here. -/
def set (s : SignerBitmap) (idx : ℕ) : SignerBitmap :=
  if idx < s.len then
    { s with bits := s.bits.modify (idx / 8) (· ||| (1#8 <<< (idx % 8))) }
  else s

def get (s : SignerBitmap) (idx : ℕ) : Bool :=
  if s.len ≤ idx then false else testBit (s.bits.getD (idx / 8) 0#8) (idx % 8)

def count (s : SignerBitmap) : ℕ := (s.bits.map countOnes).sum

def iterSet (s : SignerBitmap) : List ℕ :=
  s.bits.zipIdx.flatMap fun e =>
    (List.range 8).filterMap fun bit =>
      let idx := e.2 * 8 + bit
      if idx < s.len && testBit e.1 bit then some idx else none

def isWellFormed (s : SignerBitmap) : Bool :=
  if s.bits.length ≠ (s.len + 7) / 8 then false
  else if s.len % 8 ≠ 0 then
    let mask : BitVec 8 := ((1#16 <<< (s.len % 8)) - 1#16).truncate 8
    (s.bits.getLastD 0#8) &&& ~~~mask == 0#8
  else true

theorem testBit_eq_getLsbD (byte : BitVec 8) (bit : ℕ) :
    testBit byte bit = byte.getLsbD bit := by
  unfold testBit
  rw [Bool.eq_iff_iff, beq_iff_eq]
  constructor
  · intro h
    have h0 := congrArg (fun x : BitVec 8 => x.getLsbD 0) h
    simpa using h0
  · intro h
    apply BitVec.eq_of_getLsbD_eq
    intro i hi
    rcases Nat.eq_zero_or_pos i with rfl | hp
    · simpa using h
    · simp [BitVec.getLsbD_one, Nat.ne_of_gt hp]

@[simp] theorem set_len (s : SignerBitmap) (i : ℕ) : (s.set i).len = s.len := by
  unfold set
  split_ifs <;> rfl

@[simp] theorem set_bits_length (s : SignerBitmap) (i : ℕ) :
    (s.set i).bits.length = s.bits.length := by
  unfold set
  split_ifs <;> simp

theorem get_new (n i : ℕ) : (new n).get i = false := by
  unfold get new
  split_ifs with h
  · rfl
  · rw [testBit_eq_getLsbD, List.getD_replicate]
    · simp
    · dsimp only at h
      omega

/-- Setting a bit inside the bitmap sets that bit and no other. -/
theorem get_set (s : SignerBitmap) (i j : ℕ) (hi : i < s.len)
    (hb : s.bits.length = (s.len + 7) / 8) :
    (s.set i).get j = (decide (j = i) || s.get j) := by
  have hs : s.set i = { s with bits := s.bits.modify (i / 8) (· ||| (1#8 <<< (i % 8))) } :=
    if_pos hi
  unfold get
  rw [hs]
  dsimp only
  by_cases hj : s.len ≤ j
  · have hne : j ≠ i := by omega
    simp [hj, hne]
  · have hj8 : j / 8 < s.bits.length := by omega
    simp only [hj, if_false, testBit_eq_getLsbD]
    rw [List.getD_eq_getElem _ _ (by simpa using hj8), List.getD_eq_getElem _ _ hj8,
      List.getElem_modify]
    split_ifs with h8
    · rw [BitVec.getLsbD_or, BitVec.getLsbD_shiftLeft, BitVec.getLsbD_one, Bool.or_comm]
      congr 1
      have hm : j % 8 < 8 := Nat.mod_lt _ (by omega)
      by_cases he : j = i
      · subst he
        simp [hm]
      · have hme : j % 8 ≠ i % 8 := by omega
        rcases Nat.lt_or_gt_of_ne hme with hlt | hgt
        · simp [he, hlt]
        · have : j % 8 - i % 8 ≠ 0 := by omega
          simp [he, this]
    · have he : j ≠ i := by
        rintro rfl
        exact h8 rfl
      simp [he]

theorem iterSet_eq_filter (s : SignerBitmap) :
    s.iterSet = (List.range (s.bits.length * 8)).filter fun i =>
      i < s.len && testBit (s.bits.getD (i / 8) 0#8) (i % 8) := by
  have h : ∀ (bs : List (BitVec 8)) (k : ℕ),
      (bs.zipIdx k).flatMap (fun e => (List.range 8).filterMap fun bit =>
        let idx := e.2 * 8 + bit
        if idx < s.len && testBit e.1 bit then some idx else none) =
      (List.range' (k * 8) (bs.length * 8)).filter fun i =>
        i < s.len && testBit (bs.getD (i / 8 - k) 0#8) (i % 8) := by
    intro bs
    induction bs with
    | nil => intro k; simp
    | cons b bs ih =>
      intro k
      rw [List.zipIdx_cons, List.flatMap_cons, ih (k + 1)]
      have hlen : (b :: bs).length * 8 = 8 + bs.length * 8 := by
        rw [List.length_cons]
        omega
      rw [hlen, ← List.range'_append_1, List.filter_append]
      congr 1
      · rw [List.range'_eq_map_range, List.filter_map, ← List.filterMap_eq_filter,
          List.map_filterMap]
        apply List.filterMap_congr
        intro bit hbit
        have h8 : bit < 8 := List.mem_range.mp hbit
        have hd : (k * 8 + bit) / 8 = k := by omega
        have hm : (k * 8 + bit) % 8 = bit := by omega
        simp only [Function.comp_apply, Option.guard, hd, hm, Nat.sub_self, List.getD_cons_zero]
        split_ifs <;> simp
      · rw [show k * 8 + 8 = (k + 1) * 8 by omega]
        apply List.filter_congr
        intro i hi
        have hk : (k + 1) * 8 ≤ i := (List.mem_range'_1.mp hi).1
        have hq : i / 8 - k = (i / 8 - (k + 1)) + 1 := by omega
        rw [hq, List.getD_cons_succ]
  have := h s.bits 0
  simpa [iterSet, List.range_eq_range'] using this

/-- The byte vector has exactly the bytes that `len` bits need, as `new` allocates them. -/
def Sized (s : SignerBitmap) : Prop := s.bits.length = (s.len + 7) / 8

theorem sized_new (n : ℕ) : (new n).Sized := by simp [Sized, new]

theorem Sized.set {s : SignerBitmap} (h : s.Sized) (i : ℕ) : (s.set i).Sized := by
  simpa [Sized] using h

theorem mem_iterSet (s : SignerBitmap) (i : ℕ) :
    i ∈ s.iterSet ↔ i < s.bits.length * 8 ∧ s.get i = true := by
  rw [iterSet_eq_filter, List.mem_filter, List.mem_range, get]
  by_cases h : s.len ≤ i
  · simp [h]
  · simp [h, Nat.lt_of_not_ge h]

theorem Sized.mem_iterSet {s : SignerBitmap} (h : s.Sized) (i : ℕ) :
    i ∈ s.iterSet ↔ s.get i = true := by
  rw [SignerBitmap.mem_iterSet, and_iff_right_iff_imp]
  intro hg
  unfold SignerBitmap.get at hg
  split_ifs at hg with hl
  have hs : s.bits.length = (s.len + 7) / 8 := h
  omega

theorem nodup_iterSet (s : SignerBitmap) : s.iterSet.Nodup := by
  rw [iterSet_eq_filter]
  exact List.nodup_range.filter _

theorem iterSet_eq_nil_of_count_eq_zero {s : SignerBitmap} (h : s.count = 0) :
    s.iterSet = [] := by
  rw [iterSet_eq_filter, List.filter_eq_nil_iff]
  intro i hi hb
  have h8 : i / 8 < s.bits.length := by
    have := List.mem_range.mp hi
    omega
  have hz : countOnes (s.bits.getD (i / 8) 0#8) = 0 := by
    rw [List.getD_eq_getElem _ _ h8]
    exact List.sum_eq_zero_iff_forall_eq_nat.mp h _ (List.mem_map_of_mem (List.getElem_mem h8))
  have hf := List.countP_eq_zero.mp hz (i % 8) (List.mem_range.mpr (Nat.mod_lt _ (by omega)))
  exact hf (Bool.and_eq_true_iff.mp hb).2

end SignerBitmap

end Boule
