import Boule.HotStuff.Qc

/-! The accessors of a signer bitmap whose bytes and length do not belong together. -/
namespace Boule

namespace SignerBitmap

/-- `get`; `none` where the byte of an index below `len` is missing, and indexing panics. -/
def getChecked (s : SignerBitmap) (idx : ℕ) : Option Bool :=
  if s.len ≤ idx then some false
  else (s.bits[idx / 8]?).map fun byte => testBit byte (idx % 8)

/-- A bit of the byte vector, whether it is below `len` or not. -/
def rawBit (s : SignerBitmap) (idx : ℕ) : Bool := testBit (s.bits.getD (idx / 8) 0#8) (idx % 8)

/-- There is a byte for every index below `len`. -/
def Covered (s : SignerBitmap) : Prop := (s.len + 7) / 8 ≤ s.bits.length

instance (s : SignerBitmap) : Decidable s.Covered := inferInstanceAs (Decidable (_ ≤ _))

variable {s : SignerBitmap} {i : ℕ}

theorem rawBit_of_le (h : s.bits.length * 8 ≤ i) : s.rawBit i = false := by
  have hnone : s.bits.getD (i / 8) 0#8 = 0#8 := List.getD_eq_default _ _ (by omega)
  rw [rawBit, hnone, testBit_eq_getLsbD]
  exact BitVec.getLsbD_zero

/-- An index is served exactly when it is not below `len` or its byte is there. -/
theorem getChecked_eq (s : SignerBitmap) (i : ℕ) :
    s.getChecked i = if s.len ≤ i ∨ i / 8 < s.bits.length then some (i < s.len && s.rawBit i)
      else none := by
  unfold getChecked rawBit
  by_cases hlen : s.len ≤ i
  · have hnot : ¬ i < s.len := by omega
    rw [if_pos hlen, if_pos (Or.inl hlen), decide_eq_false hnot, Bool.false_and]
  · have hlt : i < s.len := by omega
    rw [if_neg hlen]
    by_cases hbyte : i / 8 < s.bits.length
    · rw [if_pos (Or.inr hbyte), List.getElem?_eq_getElem hbyte, List.getD_eq_getElem _ _ hbyte,
        Option.map_some, decide_eq_true hlt, Bool.true_and]
    · rw [if_neg (by omega), List.getElem?_eq_none (by omega), Option.map_none]

theorem Covered.getChecked (h : s.Covered) (i : ℕ) :
    s.getChecked i = some (i < s.len && s.rawBit i) := by
  unfold Covered at h
  rw [getChecked_eq, if_pos (by omega)]

/-- No index panics exactly when the bytes cover the length. -/
theorem getChecked_isSome_iff : (∀ i, (s.getChecked i).isSome = true) ↔ s.Covered := by
  constructor
  · intro h
    by_contra hshort
    unfold Covered at hshort
    have hlast := h (s.len - 1)
    rw [getChecked_eq, if_neg (by omega)] at hlast
    cases hlast
  · intro h i
    rw [h.getChecked, Option.isSome_some]

/-! ### Well-formed bitmaps -/

theorem getLsbD_mask {r b : ℕ} (hr : r < 8) (hb : b < 8) :
    (((1#16 <<< r) - 1#16).truncate 8 : BitVec 8).getLsbD b = decide (b < r) := by
  have hall : ∀ r : Fin 8, ∀ b : Fin 8,
      (((1#16 <<< (r : ℕ)) - 1#16).truncate 8 : BitVec 8).getLsbD b = decide (b < r) := by
    decide
  exact hall ⟨r, hr⟩ ⟨b, hb⟩

/-- The bits of a byte that the mask leaves out are clear. -/
theorem and_not_mask_eq_zero_iff (byte : BitVec 8) {r : ℕ} (hr : r < 8) :
    byte &&& ~~~(((1#16 <<< r) - 1#16).truncate 8 : BitVec 8) = 0#8 ↔
      ∀ b < 8, r ≤ b → testBit byte b = false := by
  constructor
  · intro h b hb hle
    have hbit := congrArg (fun x : BitVec 8 => x.getLsbD b) h
    simp only [BitVec.getLsbD_and, BitVec.getLsbD_not, BitVec.getLsbD_zero, getLsbD_mask hr hb]
      at hbit
    have hge : ¬ b < r := by omega
    rw [testBit_eq_getLsbD]
    simpa [hb, hge] using hbit
  · intro h
    apply BitVec.eq_of_getLsbD_eq
    intro b hb
    rw [BitVec.getLsbD_and, BitVec.getLsbD_not, BitVec.getLsbD_zero, getLsbD_mask hr hb]
    by_cases hlt : b < r
    · simp [hlt]
    · have hbit := h b hb (by omega)
      rw [testBit_eq_getLsbD] at hbit
      rw [hbit, Bool.false_and]

theorem isWellFormed_iff :
    s.isWellFormed = true ↔ s.Sized ∧ ∀ i, s.len ≤ i → s.rawBit i = false := by
  unfold isWellFormed Sized
  by_cases hsize : s.bits.length = (s.len + 7) / 8
  · rw [if_neg (not_not_intro hsize), and_iff_right hsize]
    by_cases hrest : s.len % 8 = 0
    · rw [if_neg (not_not_intro hrest)]
      refine iff_of_true rfl fun i hi => rawBit_of_le (by omega)
    · have hlast : ∀ i, i / 8 = s.bits.length - 1 →
          s.bits.getD (i / 8) 0#8 = s.bits.getLastD 0#8 := by
        intro i hi
        rw [hi, List.getLastD_eq_getLast?, List.getLast?_eq_getElem?, List.getD_eq_getElem?_getD]
      have hmod : s.len % 8 < 8 := Nat.mod_lt _ (by omega)
      rw [if_pos hrest]
      show ((s.bits.getLastD 0#8) &&& ~~~(((1#16 <<< (s.len % 8)) - 1#16).truncate 8 : BitVec 8) ==
        0#8) = true ↔ _
      rw [beq_iff_eq, and_not_mask_eq_zero_iff _ hmod]
      constructor
      · intro h i hi
        by_cases hin : i / 8 = s.bits.length - 1
        · rw [rawBit, hlast i hin]
          exact h (i % 8) (Nat.mod_lt _ (by omega)) (by omega)
        · exact rawBit_of_le (by omega)
      · intro h b hb hle
        have hbit := h ((s.bits.length - 1) * 8 + b) (by omega)
        have hdiv : ((s.bits.length - 1) * 8 + b) / 8 = s.bits.length - 1 := by omega
        have hrem : ((s.bits.length - 1) * 8 + b) % 8 = b := by omega
        rwa [rawBit, hlast _ hdiv, hrem] at hbit
  · rw [if_pos hsize]
    exact iff_of_false (fun h => by cases h) fun h => hsize h.1

theorem Sized.covered (h : s.Sized) : s.Covered := Nat.le_of_eq h.symm

/-- The set bits of the vector, counted byte by byte. -/
theorem count_eq (s : SignerBitmap) :
    s.count = (List.range (s.bits.length * 8)).countP s.rawBit := by
  have hbytes : ∀ bs : List (BitVec 8), (bs.map countOnes).sum =
      (List.range (bs.length * 8)).countP fun i => testBit (bs.getD (i / 8) 0#8) (i % 8) := by
    intro bs
    induction bs with
    | nil => rfl
    | cons byte bs ih =>
      have hlen : (byte :: bs).length * 8 = 8 + bs.length * 8 := by
        rw [List.length_cons]
        omega
      have hfirst : countOnes byte = (List.range 8).countP
          fun i => testBit ((byte :: bs).getD (i / 8) 0#8) (i % 8) := by
        apply List.countP_congr
        intro i hi
        have hi8 : i < 8 := List.mem_range.mp hi
        rw [Nat.div_eq_of_lt hi8, Nat.mod_eq_of_lt hi8, List.getD_cons_zero]
      have hrest : ∀ i, testBit ((byte :: bs).getD ((8 + i) / 8) 0#8) ((8 + i) % 8) =
          testBit (bs.getD (i / 8) 0#8) (i % 8) := by
        intro i
        have hdiv : (8 + i) / 8 = i / 8 + 1 := by omega
        have hmod : (8 + i) % 8 = i % 8 := by omega
        rw [hdiv, hmod, List.getD_cons_succ]
      rw [List.map_cons, List.sum_cons, ih, hlen, List.range_add, List.countP_append,
        List.countP_map, hfirst]
      congr 1
      exact List.countP_congr fun i _ => by rw [Function.comp_apply, hrest]
  exact hbytes s.bits

theorem iterSet_strictMono (s : SignerBitmap) : s.iterSet.Pairwise (· < ·) := by
  rw [iterSet_eq_filter]
  exact List.pairwise_lt_range.filter _

/-- The indices for which `get` answers `true`. -/
def gotIndices (s : SignerBitmap) : Finset ℕ :=
  (Finset.range s.len).filter fun i => s.getChecked i = some true

/-- The indices that `iter_set` yields are those for which `get` answers `true`. -/
theorem Covered.toFinset_iterSet (h : s.Covered) : s.iterSet.toFinset = s.gotIndices := by
  ext i
  rw [List.mem_toFinset, iterSet_eq_filter, List.mem_filter, List.mem_range, gotIndices,
    Finset.mem_filter, Finset.mem_range, h.getChecked, Option.some_inj, Bool.and_eq_true,
    decide_eq_true_eq, Bool.and_eq_true, decide_eq_true_eq]
  unfold Covered at h
  constructor
  · exact fun hi => ⟨hi.2.1, hi.2⟩
  · exact fun hi => ⟨by omega, hi.2⟩

theorem Covered.length_iterSet (h : s.Covered) : s.iterSet.length = s.gotIndices.card := by
  rw [← h.toFinset_iterSet]
  exact (List.toFinset_card_of_nodup s.nodup_iterSet).symm

/-- No stray bit is counted. -/
theorem count_eq_length_iterSet (h : s.isWellFormed = true) : s.count = s.iterSet.length := by
  obtain ⟨-, hclear⟩ := isWellFormed_iff.mp h
  rw [count_eq, iterSet_eq_filter, List.countP_eq_length_filter]
  congr 1
  apply List.filter_congr
  intro i _
  show s.rawBit i = (decide (i < s.len) && s.rawBit i)
  by_cases hi : i < s.len
  · rw [decide_eq_true hi, Bool.true_and]
  · rw [hclear i (by omega), Bool.and_false]

theorem rawBit_set (h : s.Sized) (hi : i < s.len) (j : ℕ) (hj : j < s.len) :
    (s.set i).rawBit j = (decide (j = i) || s.rawBit j) := by
  have hget := get_set s i j hi h
  have hnot : ¬ s.len ≤ j := by omega
  unfold get at hget
  rw [set_len, if_neg hnot, if_neg hnot] at hget
  exact hget

/-- A bit of another byte, or of another place in the byte, stays. -/
theorem rawBit_set_of_ne {j : ℕ} (hne : j ≠ i) : (s.set i).rawBit j = s.rawBit j := by
  unfold SignerBitmap.set
  split_ifs with hi
  · by_cases hj : j / 8 < s.bits.length
    · unfold rawBit
      rw [List.getD_eq_getElem _ _ (by simpa using hj), List.getD_eq_getElem _ _ hj,
        List.getElem_modify, testBit_eq_getLsbD, testBit_eq_getLsbD]
      split_ifs with h8
      · have hbit : (1#8 <<< (i % 8)).getLsbD (j % 8) = false := by
          rw [BitVec.getLsbD_shiftLeft, BitVec.getLsbD_one]
          rcases Nat.lt_or_gt_of_ne (show j % 8 ≠ i % 8 by omega) with hlt | hgt
          · simp [hlt]
          · have hpos : j % 8 - i % 8 ≠ 0 := by omega
            simp [hpos]
        rw [BitVec.getLsbD_or, hbit, Bool.or_false]
      · rfl
    · rw [rawBit_of_le (by simp; omega), rawBit_of_le (by omega)]
  · rfl

theorem isWellFormed_set (h : s.isWellFormed = true) (hi : i < s.len) :
    (s.set i).isWellFormed = true := by
  obtain ⟨hsized, hclear⟩ := isWellFormed_iff.mp h
  refine isWellFormed_iff.mpr ⟨hsized.set i, fun j hj => ?_⟩
  rw [set_len] at hj
  rw [rawBit_set_of_ne (by omega)]
  exact hclear j hj

/-- Setting a bit inside the bitmap sets that bit and no other. -/
theorem getChecked_set (h : s.Sized) (hi : i < s.len) (j : ℕ) :
    (s.set i).getChecked j = if j = i then some true else s.getChecked j := by
  rw [(h.set i).covered.getChecked, h.covered.getChecked, set_len]
  split_ifs with hj
  · rw [rawBit_set h hi j (by omega), decide_eq_true hj, Bool.true_or,
      decide_eq_true (show j < s.len by omega), Bool.true_and]
  · rw [rawBit_set_of_ne hj]

/-- The count grows by one exactly when the bit was clear. -/
theorem count_set (h : s.isWellFormed = true) (hi : i < s.len) :
    (s.set i).count = s.count + if s.getChecked i = some true then 0 else 1 := by
  have hsized := (isWellFormed_iff.mp h).1
  have hset := isWellFormed_set h hi
  have hinsert : (s.set i).gotIndices = insert i s.gotIndices := by
    ext j
    simp only [gotIndices, Finset.mem_filter, Finset.mem_range, Finset.mem_insert, set_len,
      getChecked_set hsized hi]
    by_cases hj : j = i
    · simp [hj, hi]
    · simp [hj]
  have hmem : i ∈ s.gotIndices ↔ s.getChecked i = some true := by
    rw [gotIndices, Finset.mem_filter, Finset.mem_range, and_iff_right hi]
  rw [count_eq_length_iterSet hset, (hsized.set i).covered.length_iterSet, hinsert,
    count_eq_length_iterSet h, hsized.covered.length_iterSet]
  split_ifs with hgot
  · rw [Finset.insert_eq_of_mem (hmem.mpr hgot), Nat.add_zero]
  · exact Finset.card_insert_of_notMem fun hin => hgot (hmem.mp hin)

end SignerBitmap

/-! ### Weights -/

/-- `weight_at`; `none` where indexing panics. -/
def ValidatorSet.weightAtChecked (vs : ValidatorSet) (idx : ℕ) : Option ℕ :=
  (vs.weights[idx]?).map UInt64.toNat

/-- `signer_weight`; `none` where indexing panics. -/
def QuorumCertificate.signerWeightChecked (qc : QuorumCertificate) (vs : ValidatorSet) :
    Option ℕ :=
  qc.signers.iterSet.foldlM
    (fun acc idx =>
      if vs.len ≤ idx then some acc
      else (vs.weightAtChecked idx).map fun weight => saturatingAddU128 acc weight) 0

theorem QuorumCertificate.signerWeightChecked_eq (qc : QuorumCertificate) (vs : ValidatorSet) :
    qc.signerWeightChecked vs = some (qc.signerWeight vs) := by
  unfold signerWeightChecked signerWeight
  generalize 0 = acc
  induction qc.signers.iterSet generalizing acc with
  | nil => rfl
  | cons idx rest ih =>
    rw [List.foldlM_cons, List.foldl_cons]
    by_cases hidx : vs.len ≤ idx
    · rw [if_pos hidx, if_pos hidx]
      exact ih acc
    · have hlt : idx < vs.weights.length := by
        rw [vs.weights_length]
        exact Nat.lt_of_not_le hidx
      have hweight : vs.weightAtChecked idx = some (vs.weightAt idx) := by
        rw [ValidatorSet.weightAtChecked, List.getElem?_eq_getElem hlt, Option.map_some,
          vs.weightAt_eq_getElem hlt]
      rw [if_neg hidx, if_neg hidx, hweight]
      exact ih _

namespace SignerBitmap
variable {s : SignerBitmap}

/-- The accessors agree on a well-formed bitmap, and none of them leaves the bytes of any. -/
structure Sound (s : SignerBitmap) : Prop where
  wellFormed : s.isWellFormed = true ↔
    s.bits.length = (s.len + 7) / 8 ∧ ∀ i, s.len ≤ i → s.rawBit i = false
  count_iterSet : s.isWellFormed = true → s.count = s.iterSet.length
  count_get : s.isWellFormed = true → s.count = s.gotIndices.card
  increasing : s.isWellFormed = true → s.iterSet.Pairwise (· < ·)
  set_get : s.isWellFormed = true → ∀ i < s.len, ∀ j,
    (s.set i).getChecked j = if j = i then some true else s.getChecked j
  set_wellFormed : s.isWellFormed = true → ∀ i < s.len, (s.set i).isWellFormed = true
  set_count : s.isWellFormed = true → ∀ i < s.len,
    (s.set i).count = s.count + if s.getChecked i = some true then 0 else 1
  get_inBounds : ∀ i, (s.getChecked i).isSome = true
  weight_inBounds : ∀ (qc : QuorumCertificate) (vs : ValidatorSet), qc.signers = s →
    vs.len = s.len → (qc.signerWeightChecked vs).isSome = true

/-- Everything holds of every bitmap but `get`, which needs a byte for every index below `len`. -/
theorem sound_iff_covered (s : SignerBitmap) : s.Sound ↔ s.Covered := by
  constructor
  · exact fun h => getChecked_isSome_iff.mp h.get_inBounds
  · intro hcovered
    refine ⟨isWellFormed_iff, count_eq_length_iterSet, fun h => ?_, fun _ => s.iterSet_strictMono,
      fun h i hi j => ?_, fun h i hi => isWellFormed_set h hi, fun h i hi => count_set h hi,
      getChecked_isSome_iff.mpr hcovered, fun qc vs _ _ => ?_⟩
    · rw [count_eq_length_iterSet h, hcovered.length_iterSet]
    · exact getChecked_set (isWellFormed_iff.mp h).1 hi j
    · rw [qc.signerWeightChecked_eq, Option.isSome_some]

end SignerBitmap

namespace Sample

/-- One signer and no byte: `get` panics where `is_well_formed`, `count` and `iter_set` answer. -/
theorem short_bitmap_get_panics :
    ¬ (SignerBitmap.mk [] 1).Sound ∧ (SignerBitmap.mk [] 1).getChecked 0 = none ∧
      (SignerBitmap.mk [] 1).isWellFormed = false ∧ (SignerBitmap.mk [] 1).count = 0 ∧
      (SignerBitmap.mk [] 1).iterSet = [] := by
  refine ⟨fun h => ?_, by decide, by decide, by decide, by decide⟩
  have hin := h.get_inBounds 0
  have hpanic : (SignerBitmap.mk [] 1).getChecked 0 = none := by decide
  rw [hpanic] at hin
  cases hin

end Sample
end Boule
