import Boule.Lib.KeyScan

/-! The storage of a Solidity contract: words under 32-byte slots, and how mappings, dynamic arrays
and byte strings are laid out in them. -/
namespace Boule.Solidity
open Framing KeyScan

/-- 32 bytes, the highest first. -/
structure Word where
  bytes : List UInt8
  size : bytes.length = 32
  deriving DecidableEq

namespace Word

def ofNat (n : ℕ) : Word := ⟨bigEndian 32 n, length_bigEndian 32 n⟩

def toNat (w : Word) : ℕ := fromBigEndian w.bytes

theorem eq_of_bytes {w w' : Word} (h : w.bytes = w'.bytes) : w = w' := by
  cases w
  cases w'
  cases h
  rfl

theorem toNat_ofNat {n : ℕ} (h : n < 256 ^ 32) : (ofNat n).toNat = n := fromBigEndian_bigEndian h

/-- A slot that lies further on; slots wrap around. -/
def add (slot : Word) (n : ℕ) : Word := ofNat (slot.toNat + n)

/-- The first 32 bytes, filled up with zeros. -/
def padded (bytes : List UInt8) : Word := ⟨(bytes ++ List.replicate 32 0).take 32, by simp⟩

theorem bytes_padded (bytes : List UInt8) :
    (padded bytes).bytes = (bytes ++ List.replicate 32 0).take 32 := rfl

end Word

theorem fromBigEndian_replicate (n : ℕ) : fromBigEndian (List.replicate n 0) = 0 := by
  induction n with
  | zero => rfl
  | succ n ih => rw [List.replicate_succ, fromBigEndian_cons, ih]; simp

/-- Leading zeros do not count. -/
theorem fromBigEndian_padded (n : ℕ) (bytes : List UInt8) :
    fromBigEndian (List.replicate n 0 ++ bytes) = fromBigEndian bytes := by
  rw [fromBigEndian_append, fromBigEndian_replicate, Nat.zero_mul, Nat.zero_add]

/-! ### The storage -/

abbrev WordStore : Type := Table Word Word

/-- The word in a slot; a slot that is not written holds zero. -/
def load (st : WordStore) (slot : Word) : Word := (st.get? slot).getD (.ofNat 0)

def ofEntries (entries : List (Word × Word)) : WordStore :=
  entries.foldl (fun t e => t.insert e.1 e.2) ∅

theorem load_ofEntries {entries : List (Word × Word)} (hnodup : (entries.map Prod.fst).Nodup)
    {slot value : Word} (h : (slot, value) ∈ entries) : load (ofEntries entries) slot = value := by
  have hget : (ofEntries entries).get? slot = some value :=
    Table.get?_foldl_of_mem (r := fun _ v => some v)
      (fun t (e : Word × Word) k => Table.get?_insert t e.1 k e.2) ∅ hnodup h
  rw [load, hget, Option.getD_some]

theorem load_ofEntries_other {entries : List (Word × Word)} {slot : Word}
    (h : slot ∉ entries.map Prod.fst) : load (ofEntries entries) slot = .ofNat 0 := by
  have hget : (ofEntries entries).get? slot = (∅ : WordStore).get? slot :=
    Table.get?_foldl_of_notMem (r := fun _ v => some v)
      (fun t (e : Word × Word) k => Table.get?_insert t e.1 k e.2) ∅ h
  rw [load, hget]
  rfl

/-! ### The layout -/

section
variable (keccak : List UInt8 → Word)

/-- The slot of a key of the mapping in a slot. -/
def mappingSlot (key slot : ℕ) : Word := keccak ((Word.ofNat key).bytes ++ (Word.ofNat slot).bytes)

/-- The first slot of an element of the dynamic array in a slot. -/
def elementSlot (array : Word) (slots i : ℕ) : Word := (keccak array.bytes).add (i * slots)

/-- A `uint64` that lies some bits above the end of the word. -/
def loadUint64 (st : WordStore) (slot : Word) (shift : ℕ) : ℕ :=
  (load st slot).toNat / 2 ^ shift % 2 ^ 64

/-- A byte string: up to 31 bytes lie in the slot itself, more of them in the words after the hash
of the slot. -/
def loadBytes (st : WordStore) (slot : Word) : List UInt8 :=
  let header := (load st slot).toNat
  if header % 2 = 0 then (load st slot).bytes.take (header % 256 / 2)
  else
    let length := header / 2
    ((List.range ((length + 31) / 32)).flatMap fun j =>
      (load st ((keccak slot.bytes).add j)).bytes).take length

/-- The words of a byte string, one after the other. -/
theorem take_flatMap_padded {m : ℕ} (bytes : List UInt8) (h : bytes.length ≤ 32 * m) :
    ((List.range m).flatMap fun j => (Word.padded ((bytes.drop (32 * j)).take 32)).bytes).take
      bytes.length = bytes := by
  induction m generalizing bytes with
  | zero =>
    have hnil : bytes = [] := List.eq_nil_of_length_eq_zero (by omega)
    rw [hnil]
    rfl
  | succ m ih =>
    have hdrop := ih (bytes.drop 32) (by rw [List.length_drop]; omega)
    have hnext : ∀ j, bytes.drop (32 * (j + 1)) = (bytes.drop 32).drop (32 * j) := by
      intro j
      rw [List.drop_drop]
      congr 1
      ring
    rw [List.range_succ_eq_map, List.flatMap_cons, List.flatMap_map]
    simp only [Nat.succ_eq_add_one, hnext, Nat.mul_zero, List.drop_zero]
    rcases Nat.lt_or_ge bytes.length 32 with hshort | hlong
    · have hall : bytes.take 32 = bytes := List.take_of_length_le (by omega)
      rw [hall, List.take_append_of_le_length (by rw [Word.size]; omega),
        Word.bytes_padded, List.take_take, Nat.min_eq_left (by omega), List.take_left' rfl]
    · have hfirst : (Word.padded (bytes.take 32)).bytes = bytes.take 32 := by
        rw [Word.bytes_padded, List.take_left' (by rw [List.length_take]; omega)]
      have hsize : (bytes.take 32).length = 32 := by rw [List.length_take]; omega
      rw [hfirst, List.take_append, hsize]
      rw [List.length_drop] at hdrop
      rw [hdrop, List.take_of_length_le (by omega), List.take_append_drop]

/-- A byte string is read back from its header and its words. -/
theorem loadBytes_of_words {st : WordStore} {slot : Word} {bytes : List UInt8}
    (hheader : (load st slot).toNat = bytes.length * 2 + 1)
    (hwords : ∀ j < (bytes.length + 31) / 32, load st ((keccak slot.bytes).add j) =
      .padded ((bytes.drop (32 * j)).take 32)) : loadBytes keccak st slot = bytes := by
  have hodd : (bytes.length * 2 + 1) % 2 ≠ 0 := by omega
  have hhalf : (bytes.length * 2 + 1) / 2 = bytes.length := by omega
  have hall : ((List.range ((bytes.length + 31) / 32)).flatMap fun j =>
      (load st ((keccak slot.bytes).add j)).bytes) =
      (List.range ((bytes.length + 31) / 32)).flatMap fun j =>
        (Word.padded ((bytes.drop (32 * j)).take 32)).bytes :=
    List.flatMap_congr fun j hj => by rw [hwords j (List.mem_range.mp hj)]
  unfold loadBytes
  simp only [hheader, hodd, if_false, hhalf, hall]
  exact take_flatMap_padded bytes (by omega)

end
end Boule.Solidity
