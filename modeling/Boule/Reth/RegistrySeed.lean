import Boule.Lib.SolidityStorage
import Boule.Reth.RegistryCodec

/-! The storage words of the registry contract at genesis, and what the contract reads from them. -/
namespace Boule
open Framing KeyScan Solidity

abbrev StorageEntry : Type := Word × Word

/-- A key in 128 bytes. -/
abbrev G1Bytes : Type := {bytes : Bytes // bytes.length = blsKeyLen}

def historyMappingSlot : ℕ := 0

def keyEntrySlots : ℕ := 2

def weightMappingSlot : ℕ := 1

def totalWeightSlot : ℕ := 2

/-! ### Slots -/

/-- The loop of `slot_add` over the bytes from the last one on: the bytes and the carry that is
left. -/
def slotAddLoop : Bytes → ℕ → Bytes × ℕ
  | [], carry => ([], carry)
  | b :: bytes, carry =>
    if carry = 0 then (b :: bytes, 0)
    else
      let sum := b.toNat + carry % 256
      let (bytes, carry) := slotAddLoop bytes (carry / 256 + sum / 256)
      (UInt8.ofNat sum :: bytes, carry)

theorem length_slotAddLoop (bytes : Bytes) (carry : ℕ) :
    (slotAddLoop bytes carry).1.length = bytes.length := by
  induction bytes generalizing carry with
  | nil => rfl
  | cons b bytes ih =>
    rw [slotAddLoop]
    split_ifs with h
    · rfl
    · simp [ih]

/-- `slot_add`; a carry that is left over panics. -/
def slotAdd (slot : Word) (delta : ℕ) : Option Word :=
  let sum := slotAddLoop slot.bytes.reverse delta
  if sum.2 = 0 then
    some ⟨sum.1.reverse, by rw [List.length_reverse, length_slotAddLoop, List.length_reverse,
      slot.size]⟩
  else none

/-- Bytes are carried over as digits are. -/
theorem slotAddLoop_value (bytes : Bytes) (carry : ℕ) :
    fromBigEndian (slotAddLoop bytes carry).1.reverse +
        256 ^ bytes.length * (slotAddLoop bytes carry).2 =
      fromBigEndian bytes.reverse + carry := by
  induction bytes generalizing carry with
  | nil => simp [slotAddLoop]
  | cons b bytes ih =>
    rw [slotAddLoop]
    split_ifs with h
    · simp [h]
    · have htail := ih (carry / 256 + (b.toNat + carry % 256) / 256)
      have hlast : ∀ (c : UInt8) (rest : Bytes), fromBigEndian (c :: rest).reverse =
          fromBigEndian rest.reverse * 256 + c.toNat := by
        intro c rest
        rw [List.reverse_cons, fromBigEndian_append]
        simp [fromBigEndian]
      simp only [hlast, List.length_cons, pow_succ, UInt8.toNat_ofNat']
      generalize slotAddLoop bytes (carry / 256 + (b.toNat + carry % 256) / 256) = tail at htail ⊢
      have hscaled : 256 ^ bytes.length * 256 * tail.2 =
          256 * (256 ^ bytes.length * tail.2) := by ring
      rw [hscaled]
      omega

theorem slotAdd_eq_some {slot slot' : Word} {delta : ℕ} (h : slotAdd slot delta = some slot') :
    slot' = slot.add delta := by
  unfold slotAdd at h
  simp only at h
  split_ifs at h with hcarry
  obtain rfl := Option.some.inj h
  have hvalue := slotAddLoop_value slot.bytes.reverse delta
  rw [hcarry, Nat.mul_zero, Nat.add_zero, List.reverse_reverse] at hvalue
  apply Word.eq_of_bytes
  have hsize : (slotAddLoop slot.bytes.reverse delta).1.reverse.length = 32 := by
    rw [List.length_reverse, length_slotAddLoop, List.length_reverse, slot.size]
  have hback := bigEndian_fromBigEndian (slotAddLoop slot.bytes.reverse delta).1.reverse
  rw [hsize, hvalue] at hback
  exact hback.symm

/-! ### Words -/

def wordOfU64 (n : ℕ) : Word :=
  ⟨List.replicate 24 0 ++ bigEndian 8 n, by simp [length_bigEndian]⟩

def wordOfU128 (n : ℕ) : Word :=
  ⟨List.replicate 16 0 ++ bigEndian 16 n, by simp [length_bigEndian]⟩

theorem toNat_wordOfU64 {n : ℕ} (h : n < 2 ^ 64) : (wordOfU64 n).toNat = n := by
  rw [Word.toNat, wordOfU64, fromBigEndian_padded, fromBigEndian_bigEndian (by omega)]

theorem toNat_wordOfU128 {n : ℕ} (h : n < 2 ^ 128) : (wordOfU128 n).toNat = n := by
  rw [Word.toNat, wordOfU128, fromBigEndian_padded, fromBigEndian_bigEndian (by omega)]

/-- `chunks(32)` -/
def chunks (key : Bytes) : List Bytes :=
  (List.range ((key.length + 31) / 32)).map fun j => (key.drop (32 * j)).take 32

section
variable (keccak : Bytes → Word)

/-- The hash of a validator and of the slot of a mapping, in 64 bytes. -/
def validatorSlot (validator : NodeId) (slot : ℕ) : Word :=
  keccak (bigEndian 32 validator ++ (List.replicate 24 0 ++ bigEndian 8 slot))

def weightStorage (validator : NodeId) (weight : ℕ) : StorageEntry :=
  (validatorSlot keccak validator weightMappingSlot, wordOfU64 weight)

/-- The words of one entry of a history; `i as u64 * KEY_ENTRY_SLOTS` does not overflow for the
entries of a slice. -/
def keyEntryStorage (dataBase : Word) (entry : ℕ × Bytes) (i : ℕ) : Option (List StorageEntry) := do
  let elem ← slotAdd dataBase (i * keyEntrySlots)
  let headerSlot ← slotAdd elem 1
  let chunkBase := keccak headerSlot.bytes
  let words ← (chunks entry.2).zipIdx.mapM fun chunk => do
    return (← slotAdd chunkBase chunk.2, Word.padded chunk.1)
  return (elem, wordOfU64 entry.1) :: (headerSlot, wordOfU128 (entry.2.length * 2 + 1)) :: words

def validatorHistoryStorage (validator : NodeId) (entries : List (ℕ × Bytes)) :
    Option (List StorageEntry) := do
  let arraySlot := validatorSlot keccak validator historyMappingSlot
  let dataBase := keccak arraySlot.bytes
  let elements ← entries.zipIdx.mapM fun entry => keyEntryStorage keccak dataBase entry.1 entry.2
  return (arraySlot, wordOfU64 entries.length) :: elements.flatten

/-- `genesis_seed_storage`; `none` for a key outside the group, a total that overflows or a slot
that does. -/
def genesisSeedStorage (toG1 : BlsPublicKey → Option G1Bytes)
    (genesis : List (NodeId × BlsPublicKey × ℕ)) : Option (List StorageEntry) := do
  let (out, totalWeight) ← genesis.foldlM (fun acc e => do
    let key ← toG1 e.2.1
    let history ← validatorHistoryStorage keccak e.1 [(0, key.1)]
    let totalWeight ← checkedAddU64 acc.2 e.2.2
    return (acc.1 ++ history ++ [weightStorage keccak e.1 e.2.2], totalWeight)) ([], 0)
  return if totalWeight ≠ 0 then out ++ [(wordOfU64 totalWeightSlot, wordOfU64 totalWeight)]
    else out

/-! ### What the contract reads -/

namespace RegistryStorage

def entries (st : WordStore) (validator : NodeId) : List RegistryEntry :=
  let array := mappingSlot keccak validator historyMappingSlot
  (List.range (load st array).toNat).map fun i =>
    let element := elementSlot keccak array keyEntrySlots i
    ⟨loadUint64 st element 0, loadBytes keccak st (element.add 1)⟩

def keyAt (st : WordStore) (validator : NodeId) (viewNum : ℕ) : Bytes :=
  (((entries keccak st validator).reverse.find? (·.vEff ≤ viewNum)).map
    RegistryEntry.key).getD []

def weightOf (st : WordStore) (validator : NodeId) : ℕ :=
  loadUint64 st (mappingSlot keccak validator weightMappingSlot) 0

def totalWeight (st : WordStore) : ℕ := loadUint64 st (.ofNat totalWeightSlot) 0

/-- The view shares a slot with the total weight. -/
def settledView (st : WordStore) : ℕ := loadUint64 st (.ofNat totalWeightSlot) 64

end RegistryStorage

/-- The slots of a validator with one key. -/
def validatorSlots (validator : NodeId) : List Word :=
  let array := mappingSlot keccak validator historyMappingSlot
  let element := elementSlot keccak array keyEntrySlots 0
  [array, element, element.add 1] ++
    (List.range 4).map (fun j => (keccak (element.add 1).bytes).add j) ++
      [mappingSlot keccak validator weightMappingSlot]

/-- The hash gives these validators, and the total weight, distinct slots. -/
def DistinctSlots (validators : List NodeId) : Prop :=
  (validators.flatMap (validatorSlots keccak) ++ [Word.ofNat totalWeightSlot]).Nodup

instance (validators : List NodeId) : Decidable (DistinctSlots keccak validators) :=
  inferInstanceAs (Decidable (List.Nodup _))

/-- The words of a validator with one key from view 0. -/
def validatorWords (validator : NodeId) (key : Bytes) (weight : ℕ) : List StorageEntry :=
  let array := mappingSlot keccak validator historyMappingSlot
  let element := elementSlot keccak array keyEntrySlots 0
  [(array, wordOfU64 1), (element, wordOfU64 0),
    (element.add 1, wordOfU128 (key.length * 2 + 1))] ++
    (List.range 4).map (fun j => ((keccak (element.add 1).bytes).add j,
      Word.padded ((key.drop (32 * j)).take 32))) ++
    [(mappingSlot keccak validator weightMappingSlot, wordOfU64 weight)]

theorem map_fst_validatorWords (validator : NodeId) (key : Bytes) (weight : ℕ) :
    (validatorWords keccak validator key weight).map Prod.fst =
      validatorSlots keccak validator := by
  simp [validatorWords, validatorSlots, Function.comp_def]

theorem validatorSlot_eq (validator : NodeId) (slot : ℕ)
    (h : List.replicate 24 0 ++ bigEndian 8 slot = bigEndian 32 slot) :
    validatorSlot keccak validator slot = mappingSlot keccak validator slot := by
  unfold validatorSlot mappingSlot Word.ofNat
  rw [h]

theorem chunks_of_length {key : Bytes} (h : key.length = blsKeyLen) :
    chunks key = (List.range 4).map fun j => (key.drop (32 * j)).take 32 := by
  unfold chunks
  rw [h]
  rfl

end

section
variable {keccak : Bytes → Word}

theorem mapM_slotAdd_eq_some {base : Word} {words : List StorageEntry} {pieces : List (Bytes × ℕ)}
    (h : (pieces.mapM fun chunk => (do return (← slotAdd base chunk.2, Word.padded chunk.1) :
      Option StorageEntry)) = some words) :
    words = pieces.map fun chunk => (base.add chunk.2, Word.padded chunk.1) := by
  induction pieces generalizing words with
  | nil =>
    rw [List.mapM_nil] at h
    exact (Option.some.inj h).symm
  | cons piece pieces ih =>
    rw [List.mapM_cons] at h
    obtain ⟨first, hfirst, h⟩ := Option.bind_eq_some_iff.mp h
    obtain ⟨rest, hrest, h⟩ := Option.bind_eq_some_iff.mp h
    obtain ⟨slot, hslot, hpair⟩ := Option.bind_eq_some_iff.mp hfirst
    rw [← Option.some.inj h, ← Option.some.inj hpair, slotAdd_eq_some hslot, ih hrest,
      List.map_cons]

/-- What is written for a validator at genesis, when no slot overflows. -/
theorem validatorHistoryStorage_eq_some {validator : NodeId} {key : Bytes} (weight : ℕ)
    {words : List StorageEntry} (hkey : key.length = blsKeyLen)
    (h : validatorHistoryStorage keccak validator [(0, key)] = some words) :
    words ++ [weightStorage keccak validator weight] =
      validatorWords keccak validator key weight := by
  have hhistory := validatorSlot_eq keccak validator historyMappingSlot (by decide)
  have hweight := validatorSlot_eq keccak validator weightMappingSlot (by decide)
  unfold validatorHistoryStorage at h
  obtain ⟨elements, helements, h⟩ := Option.bind_eq_some_iff.mp h
  rw [List.zipIdx_cons, List.zipIdx_nil, List.mapM_cons, List.mapM_nil] at helements
  obtain ⟨entry, hentry, helements⟩ := Option.bind_eq_some_iff.mp helements
  unfold keyEntryStorage at hentry
  obtain ⟨elem, helem, hentry⟩ := Option.bind_eq_some_iff.mp hentry
  obtain ⟨header, hheader, hentry⟩ := Option.bind_eq_some_iff.mp hentry
  obtain ⟨chunkWords, hchunks, hentry⟩ := Option.bind_eq_some_iff.mp hentry
  have hwords := mapM_slotAdd_eq_some hchunks
  rw [chunks_of_length hkey] at hwords
  rw [← Option.some.inj h, ← Option.some.inj helements, ← Option.some.inj hentry, hwords,
    slotAdd_eq_some hheader, slotAdd_eq_some helem, hhistory]
  unfold weightStorage validatorWords
  rw [hweight]
  rfl

/-! ### The genesis -/

/-- A genesis validator with its key in the group. -/
structure Seed where
  validator : NodeId
  key : G1Bytes
  weight : ℕ

def Seed.words (keccak : Bytes → Word) (s : Seed) : List StorageEntry :=
  validatorWords keccak s.validator s.key.1 s.weight

def totalOf (seeds : List Seed) : ℕ := (seeds.map Seed.weight).sum

theorem totalOf_cons (s : Seed) (seeds : List Seed) :
    totalOf (s :: seeds) = s.weight + totalOf seeds := by
  unfold totalOf
  rw [List.map_cons, List.sum_cons]

/-- The words of each validator, and the total weight if there is any. -/
def genesisWords (keccak : Bytes → Word) (seeds : List Seed) : List StorageEntry :=
  seeds.flatMap (Seed.words keccak) ++
    if totalOf seeds ≠ 0 then [(Word.ofNat totalWeightSlot, wordOfU64 (totalOf seeds))] else []

/-- The seeds are those of the genesis, in its order. -/
def SeedsOf (toG1 : BlsPublicKey → Option G1Bytes) (genesis : List (NodeId × BlsPublicKey × ℕ))
    (seeds : List Seed) : Prop :=
  List.Forall₂ (fun e s => s.validator = e.1 ∧ toG1 e.2.1 = some s.key ∧ s.weight = e.2.2) genesis
    seeds

variable {toG1 : BlsPublicKey → Option G1Bytes} {genesis : List (NodeId × BlsPublicKey × ℕ)}

theorem genesisSeedStorage_loop {acc acc' : List StorageEntry × ℕ}
    (h : genesis.foldlM (fun acc e => (do
      let key ← toG1 e.2.1
      let history ← validatorHistoryStorage keccak e.1 [(0, key.1)]
      let totalWeight ← checkedAddU64 acc.2 e.2.2
      return (acc.1 ++ history ++ [weightStorage keccak e.1 e.2.2], totalWeight) :
        Option (List StorageEntry × ℕ))) acc = some acc') (hfit : acc.2 < 2 ^ 64) :
    ∃ seeds, SeedsOf toG1 genesis seeds ∧ acc'.1 = acc.1 ++ seeds.flatMap (Seed.words keccak) ∧
      acc'.2 = acc.2 + totalOf seeds ∧ acc'.2 < 2 ^ 64 := by
  induction genesis generalizing acc with
  | nil =>
    rw [List.foldlM_nil] at h
    obtain rfl := Option.some.inj h
    exact ⟨[], .nil, (List.append_nil _).symm, rfl, hfit⟩
  | cons e genesis ih =>
    rw [List.foldlM_cons] at h
    obtain ⟨next, hnext, h⟩ := Option.bind_eq_some_iff.mp h
    obtain ⟨key, hkey, hnext⟩ := Option.bind_eq_some_iff.mp hnext
    obtain ⟨history, hhistory, hnext⟩ := Option.bind_eq_some_iff.mp hnext
    obtain ⟨total, htotal, hnext⟩ := Option.bind_eq_some_iff.mp hnext
    obtain ⟨hlt, hsum⟩ := checkedAddU64_eq_some.mp htotal
    obtain rfl := Option.some.inj hnext
    obtain ⟨seeds, hseeds, hwords, hweights, hfits⟩ := ih h (by omega)
    have hwritten := validatorHistoryStorage_eq_some e.2.2 key.2 hhistory
    refine ⟨⟨e.1, key, e.2.2⟩ :: seeds, .cons ⟨rfl, hkey, rfl⟩ hseeds, ?_, ?_, hfits⟩
    · rw [hwords, List.append_assoc acc.1, hwritten, List.flatMap_cons, List.append_assoc]
      rfl
    · rw [hweights, totalOf_cons, ← Nat.add_assoc, ← hlt]

theorem genesisSeedStorage_eq_some {words : List StorageEntry}
    (h : genesisSeedStorage keccak toG1 genesis = some words) :
    ∃ seeds, SeedsOf toG1 genesis seeds ∧ totalOf seeds < 2 ^ 64 ∧
      words = genesisWords keccak seeds := by
  unfold genesisSeedStorage at h
  obtain ⟨acc, hloop, h⟩ := Option.bind_eq_some_iff.mp h
  obtain ⟨seeds, hseeds, hwords, htotal, hfits⟩ := genesisSeedStorage_loop hloop (by norm_num)
  rw [Nat.zero_add] at htotal
  rw [htotal] at hfits
  refine ⟨seeds, hseeds, hfits, ?_⟩
  have hslot : wordOfU64 totalWeightSlot = Word.ofNat totalWeightSlot := by decide
  have hout := Option.some.inj h
  unfold genesisWords
  rw [← hout, htotal, hwords, List.nil_append, hslot]
  split_ifs
  · rfl
  · rw [List.append_nil]

/-! ### What is read at genesis -/

theorem weight_le_totalOf {seeds : List Seed} {s : Seed} (h : s ∈ seeds) :
    s.weight ≤ totalOf seeds :=
  List.le_sum_of_mem (List.mem_map.mpr ⟨s, h, rfl⟩)

theorem map_fst_genesisWords (seeds : List Seed) :
    (genesisWords keccak seeds).map Prod.fst =
      (seeds.map Seed.validator).flatMap (validatorSlots keccak) ++
        if totalOf seeds ≠ 0 then [Word.ofNat totalWeightSlot] else [] := by
  unfold genesisWords
  rw [List.map_append, List.map_flatMap, List.flatMap_map]
  simp only [Seed.words, map_fst_validatorWords]
  split_ifs <;> rfl

section
variable {seeds : List Seed} {others : List NodeId}

theorem nodup_genesisWords (h : DistinctSlots keccak (seeds.map Seed.validator ++ others)) :
    ((genesisWords keccak seeds).map Prod.fst).Nodup := by
  rw [map_fst_genesisWords]
  unfold DistinctSlots at h
  rw [List.flatMap_append, List.append_assoc] at h
  refine List.Nodup.sublist (List.Sublist.append_left ?_ _) h
  split_ifs
  · exact List.sublist_append_right ..
  · exact List.nil_sublist _

theorem load_seed (h : DistinctSlots keccak (seeds.map Seed.validator ++ others)) {s : Seed}
    (hs : s ∈ seeds) {slot : Word} (value : Word) (hword : (slot, value) ∈ s.words keccak) :
    load (ofEntries (genesisWords keccak seeds)) slot = value :=
  load_ofEntries (nodup_genesisWords h)
    (List.mem_append_left _ (List.mem_flatMap.mpr ⟨s, hs, hword⟩))

/-- The slots of other validators are not written. -/
theorem load_other (h : DistinctSlots keccak (seeds.map Seed.validator ++ others)) {v : NodeId}
    (hv : v ∈ others) (slot : Word) (hslot : slot ∈ validatorSlots keccak v) :
    load (ofEntries (genesisWords keccak seeds)) slot = .ofNat 0 := by
  apply load_ofEntries_other
  rw [map_fst_genesisWords]
  unfold DistinctSlots at h
  rw [List.flatMap_append] at h
  have hmem : slot ∈ others.flatMap (validatorSlots keccak) := List.mem_flatMap.mpr ⟨v, hv, hslot⟩
  have hlast := (List.disjoint_of_nodup_append h) (List.mem_append_right _ hmem)
  have hfirst := List.disjoint_of_nodup_append (List.Nodup.of_append_left h)
  intro hin
  rcases List.mem_append.mp hin with hin | hin
  · exact hfirst hin hmem
  · split_ifs at hin
    · exact hlast hin
    · cases hin

theorem entries_of_seed (h : DistinctSlots keccak (seeds.map Seed.validator ++ others)) {s : Seed}
    (hs : s ∈ seeds) : RegistryStorage.entries keccak (ofEntries (genesisWords keccak seeds))
      s.validator = [⟨0, s.key.1⟩] := by
  have hkey : s.key.1.length = 128 := s.key.2
  have hlength : (load (ofEntries (genesisWords keccak seeds))
      (mappingSlot keccak s.validator historyMappingSlot)).toNat = 1 := by
    rw [load_seed h hs (wordOfU64 1) (by simp [Seed.words, validatorWords])]
    decide
  have hvEff : loadUint64 (ofEntries (genesisWords keccak seeds)) (elementSlot keccak
      (mappingSlot keccak s.validator historyMappingSlot) keyEntrySlots 0) 0 = 0 := by
    unfold loadUint64
    rw [load_seed h hs (wordOfU64 0) (by simp [Seed.words, validatorWords])]
    decide
  have hbytes : loadBytes keccak (ofEntries (genesisWords keccak seeds)) ((elementSlot keccak
      (mappingSlot keccak s.validator historyMappingSlot) keyEntrySlots 0).add 1) = s.key.1 := by
    apply loadBytes_of_words
    · rw [load_seed h hs (wordOfU128 (s.key.1.length * 2 + 1))
        (by simp [Seed.words, validatorWords]), toNat_wordOfU128 (by omega)]
    · intro j hj
      apply load_seed h hs
      have hj4 : j ∈ List.range 4 := List.mem_range.mpr (by omega)
      have hword := List.mem_map_of_mem (f := fun j => ((keccak ((elementSlot keccak
        (mappingSlot keccak s.validator historyMappingSlot) keyEntrySlots 0).add 1).bytes).add j,
          Word.padded ((s.key.1.drop (32 * j)).take 32))) hj4
      exact List.mem_append_left _ (List.mem_append_right _ hword)
  unfold RegistryStorage.entries
  simp only [hlength, List.range_one, List.map_cons, List.map_nil, hvEff, hbytes]

theorem weightOf_of_seed (h : DistinctSlots keccak (seeds.map Seed.validator ++ others))
    (hfit : totalOf seeds < 2 ^ 64) {s : Seed} (hs : s ∈ seeds) :
    RegistryStorage.weightOf keccak (ofEntries (genesisWords keccak seeds)) s.validator =
      s.weight := by
  have hlt : s.weight < 2 ^ 64 := lt_of_le_of_lt (weight_le_totalOf hs) hfit
  unfold RegistryStorage.weightOf loadUint64
  rw [load_seed h hs (wordOfU64 s.weight) (by simp [Seed.words, validatorWords]),
    toNat_wordOfU64 hlt]
  omega

/-- The total weight is read from the slot that it has alone with the settled view. -/
theorem toNat_total (h : DistinctSlots keccak (seeds.map Seed.validator ++ others))
    (hfit : totalOf seeds < 2 ^ 64) :
    (load (ofEntries (genesisWords keccak seeds)) (.ofNat totalWeightSlot)).toNat =
      totalOf seeds := by
  by_cases hzero : totalOf seeds = 0
  · have hout : Word.ofNat totalWeightSlot ∉ (genesisWords keccak seeds).map Prod.fst := by
      rw [map_fst_genesisWords, if_neg (not_not.mpr hzero), List.append_nil]
      unfold DistinctSlots at h
      rw [List.flatMap_append] at h
      intro hin
      exact List.disjoint_of_nodup_append h (List.mem_append_left _ hin)
        (List.mem_singleton.mpr rfl)
    rw [load_ofEntries_other hout, Word.toNat_ofNat (by norm_num), hzero]
  · have hin : (Word.ofNat totalWeightSlot, wordOfU64 (totalOf seeds)) ∈
        genesisWords keccak seeds := by
      unfold genesisWords
      rw [if_pos hzero]
      exact List.mem_append_right _ (List.mem_singleton.mpr rfl)
    rw [load_ofEntries (nodup_genesisWords h) hin, toNat_wordOfU64 hfit]

end

/-! ### The contract at genesis -/

/-- The registry after a genesis validator. -/
def seedRegistry (r : Registry) (s : Seed) : Registry :=
  { r with
    history := r.history.insert s.validator [⟨0, s.key.1⟩]
    weight := r.weight.insert s.validator s.weight
    totalWeight := r.totalWeight + s.weight }

theorem genesisSeed_loop {seeds : List Seed} (hseeds : SeedsOf toG1 genesis seeds) {r : Registry}
    (hfit : r.totalWeight + totalOf seeds < 2 ^ 64) :
    genesis.foldlM (fun r e => (do
      let key ← (toG1 e.2.1).map Subtype.val
      let total ← checkedAddU64 r.totalWeight e.2.2
      return { r with
        history := r.history.insert e.1 [⟨0, key⟩]
        weight := r.weight.insert e.1 e.2.2
        totalWeight := total } : Option Registry)) r =
      some (seeds.foldl seedRegistry r) := by
  induction hseeds generalizing r with
  | nil => rfl
  | @cons e s genesis seeds hhead htail ih =>
    obtain ⟨hvalidator, hkey, hweight⟩ := hhead
    rw [totalOf_cons] at hfit
    have hsum : checkedAddU64 r.totalWeight e.2.2 = some (r.totalWeight + s.weight) := by
      rw [← hweight]
      exact checkedAddU64_eq_some.mpr ⟨rfl, by omega⟩
    have hnext : (do
        let key ← (toG1 e.2.1).map Subtype.val
        let total ← checkedAddU64 r.totalWeight e.2.2
        return { r with
          history := r.history.insert e.1 [⟨0, key⟩]
          weight := r.weight.insert e.1 e.2.2
          totalWeight := total } : Option Registry) = some (seedRegistry r s) := by
      rw [hkey, hsum, ← hvalidator, ← hweight]
      rfl
    have htotal : (seedRegistry r s).totalWeight = r.totalWeight + s.weight := rfl
    rw [List.foldlM_cons, hnext, List.foldl_cons]
    exact ih (by omega)

theorem entries_seedRegistry (r : Registry) (s : Seed) (v : NodeId) :
    (seedRegistry r s).entries v = if v = s.validator then [⟨0, s.key.1⟩] else r.entries v := by
  change (Table.get? (r.history.insert s.validator [⟨0, s.key.1⟩]) v).getD [] = _
  rw [Table.get?_insert]
  split_ifs <;> rfl

theorem weightOf_seedRegistry (r : Registry) (s : Seed) (v : NodeId) :
    (seedRegistry r s).weightOf v = if v = s.validator then s.weight else r.weightOf v := by
  change (Table.get? (r.weight.insert s.validator s.weight) v).getD 0 = _
  rw [Table.get?_insert]
  split_ifs <;> rfl

/-- Distinct validators keep what they are seeded with, and others have nothing. -/
theorem seeded_registry {seeds : List Seed} (hnodup : (seeds.map Seed.validator).Nodup)
    (r : Registry) :
    (∀ s ∈ seeds, (seeds.foldl seedRegistry r).entries s.validator = [⟨0, s.key.1⟩] ∧
        (seeds.foldl seedRegistry r).weightOf s.validator = s.weight) ∧
      (∀ v, v ∉ seeds.map Seed.validator →
        (seeds.foldl seedRegistry r).entries v = r.entries v ∧
          (seeds.foldl seedRegistry r).weightOf v = r.weightOf v) ∧
      (seeds.foldl seedRegistry r).totalWeight = r.totalWeight + totalOf seeds ∧
      (seeds.foldl seedRegistry r).settledView = r.settledView := by
  induction seeds generalizing r with
  | nil => exact ⟨fun s hs => absurd hs List.not_mem_nil, fun v _ => ⟨rfl, rfl⟩, rfl, rfl⟩
  | cons s seeds ih =>
    rw [List.map_cons, List.nodup_cons] at hnodup
    obtain ⟨hin, hout, htotal, hsettled⟩ := ih hnodup.2 (seedRegistry r s)
    refine ⟨?_, ?_, ?_, hsettled⟩
    · intro s' hs'
      rcases List.mem_cons.mp hs' with rfl | hs'
      · obtain ⟨hentries, hweight⟩ := hout s'.validator hnodup.1
        rw [List.foldl_cons, hentries, hweight, entries_seedRegistry, weightOf_seedRegistry,
          if_pos rfl, if_pos rfl]
        exact ⟨rfl, rfl⟩
      · exact hin s' hs'
    · intro v hv
      rw [List.map_cons, List.mem_cons, not_or] at hv
      obtain ⟨hentries, hweight⟩ := hout v hv.2
      rw [List.foldl_cons, hentries, hweight, entries_seedRegistry, weightOf_seedRegistry,
        if_neg hv.1, if_neg hv.1]
      exact ⟨rfl, rfl⟩
    · rw [List.foldl_cons, htotal, totalOf_cons, ← Nat.add_assoc]
      rfl

/-- The storage holds the registry, as far as these validators go. -/
structure StoresRegistry (keccak : Bytes → Word) (st : WordStore) (r : Registry)
    (validators : List NodeId) : Prop where
  entries : ∀ v ∈ validators, RegistryStorage.entries keccak st v = r.entries v
  weightOf : ∀ v ∈ validators, RegistryStorage.weightOf keccak st v = r.weightOf v
  totalWeight : RegistryStorage.totalWeight st = r.totalWeight
  settledView : RegistryStorage.settledView st = r.settledView

theorem StoresRegistry.keyAt {st : WordStore} {r : Registry} {validators : List NodeId}
    (h : StoresRegistry keccak st r validators) {v : NodeId} (hv : v ∈ validators) (w : ℕ) :
    RegistryStorage.keyAt keccak st v w = r.keyAt v w := by
  unfold RegistryStorage.keyAt Registry.keyAt
  rw [h.entries v hv]

/-- The words of the genesis hold the registry that starts from it. -/
theorem storesRegistry_genesis {seeds : List Seed} {others : List NodeId}
    (hslots : DistinctSlots keccak (seeds.map Seed.validator ++ others))
    (hnodup : (seeds.map Seed.validator ++ others).Nodup) (hfit : totalOf seeds < 2 ^ 64) :
    StoresRegistry keccak (ofEntries (genesisWords keccak seeds))
      (seeds.foldl seedRegistry ⟨∅, ∅, 0, 0⟩) (seeds.map Seed.validator ++ others) := by
  have hseeded := seeded_registry (List.Nodup.of_append_left hnodup) ⟨∅, ∅, 0, 0⟩
  obtain ⟨hin, hout, htotal, hsettled⟩ := hseeded
  have hdisjoint := List.disjoint_of_nodup_append hnodup
  have hword := toNat_total hslots hfit
  rw [Nat.zero_add] at htotal
  refine ⟨?_, ?_, ?_, ?_⟩
  · intro v hv
    rcases List.mem_append.mp hv with hv | hv
    · obtain ⟨s, hs, rfl⟩ := List.mem_map.mp hv
      rw [entries_of_seed hslots hs, (hin s hs).1]
    · have hnone := load_other hslots hv (mappingSlot keccak v historyMappingSlot)
        (by simp [validatorSlots])
      rw [(hout v fun hseed => hdisjoint hseed hv).1]
      have hlength : (load (ofEntries (genesisWords keccak seeds))
          (mappingSlot keccak v historyMappingSlot)).toNat = 0 := by
        rw [hnone]
        decide
      unfold RegistryStorage.entries
      simp only [hlength, List.range_zero, List.map_nil]
      rfl
  · intro v hv
    rcases List.mem_append.mp hv with hv | hv
    · obtain ⟨s, hs, rfl⟩ := List.mem_map.mp hv
      rw [weightOf_of_seed hslots hfit hs, (hin s hs).2]
    · have hnone := load_other hslots hv (mappingSlot keccak v weightMappingSlot)
        (by simp [validatorSlots])
      rw [(hout v fun hseed => hdisjoint hseed hv).2]
      unfold RegistryStorage.weightOf loadUint64
      rw [hnone]
      rfl
  · unfold RegistryStorage.totalWeight loadUint64
    rw [hword, htotal]
    omega
  · unfold RegistryStorage.settledView loadUint64
    rw [hword, hsettled, Nat.div_eq_of_lt hfit]
    rfl

end
end Boule
