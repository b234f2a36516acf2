import Boule.Lib.Cursor
import Boule.Reth.KeyMirror

/-! The bytes of a registry payload, as the consensus writes and reads them and as the execution
layer does. -/
namespace Boule
open Framing Reading

/-- `BLR1`. -/
def registryMagic : Bytes := [0x42, 0x4c, 0x52, 0x31]

def registryVersion : UInt8 := 1

def blsKeyLen : ℕ := 128

/-- The settled view, where the lowest bit of the flags announces one. -/
def readSettledView (flags : UInt8) : Reader (Option ℕ) :=
  if flags &&& 1 ≠ 0 then some <$> uint 8 else pure none

/-! ### `boule-reth` -/

def RecordKey.encode (k : RecordKey) : Bytes :=
  bigEndian 32 k.validator ++ (bigEndian 8 k.vEff ++ k.key)

def encodeWeight (w : NodeId × ℕ) : Bytes := bigEndian 32 w.1 ++ bigEndian 8 w.2

namespace RegistryPayload

def flags (p : RegistryPayload) : UInt8 := if p.settledView.isSome then 0 ||| 1 else 0

def encode (p : RegistryPayload) : Bytes :=
  registryMagic ++ ([registryVersion] ++ ([p.flags] ++ (p.settledView.elim [] (bigEndian 8) ++
    (bigEndian 4 p.keys.length ++ p.keys.flatMap RecordKey.encode ++
      (bigEndian 4 p.weights.length ++ p.weights.flatMap encodeWeight)))))

def readKey : Reader RecordKey := do
  let validator ← uint 32
  let vEff ← uint 8
  let key128 ← array blsKeyLen
  return ⟨validator, vEff, key128⟩

def readWeight : Reader (NodeId × ℕ) := do
  let validator ← uint 32
  let weight ← uint 8
  return (validator, weight)

/-- The body of `decode`; a key takes 168 bytes in memory and a weight 40. -/
def read (memory : ℕ) : Reader RegistryPayload := do
  expect registryMagic
  expectByte registryVersion
  let flags ← byte
  let settledView ← readSettledView flags
  let keys ← counted memory 168 readKey
  let weights ← counted memory 40 readWeight
  return ⟨keys, weights, settledView⟩

/-- The decoder, where no more than `memory` bytes are granted at once. -/
def decode (memory : ℕ) (extraData : Bytes) : Except Stop RegistryPayload :=
  whole (read memory) extraData

end RegistryPayload

/-! ### `boule-reth-node` -/

namespace RethNode

structure KeyRecord where
  validator : Bytes32
  vEff : ℕ
  key : Bytes
  deriving DecidableEq

structure WeightRecord where
  validator : Bytes32
  weight : ℕ
  deriving DecidableEq

structure RegistryPayload where
  keys : List KeyRecord
  weights : List WeightRecord
  settledView : Option ℕ
  deriving DecidableEq

def KeyRecord.encode (k : KeyRecord) : Bytes :=
  bigEndian 32 k.validator ++ (bigEndian 8 k.vEff ++ k.key)

def WeightRecord.encode (w : WeightRecord) : Bytes :=
  bigEndian 32 w.validator ++ bigEndian 8 w.weight

namespace RegistryPayload

def flags (p : RegistryPayload) : UInt8 := if p.settledView.isSome then 0 ||| 1 else 0

def encode (p : RegistryPayload) : Bytes :=
  registryMagic ++ ([registryVersion] ++ ([p.flags] ++ (p.settledView.elim [] (bigEndian 8) ++
    (bigEndian 4 p.keys.length ++ p.keys.flatMap KeyRecord.encode ++
      (bigEndian 4 p.weights.length ++ p.weights.flatMap WeightRecord.encode)))))

def readKey : Reader KeyRecord := do
  let validator ← fixedUint 32
  let vEff ← uint 8
  let key ← take blsKeyLen
  return ⟨validator, vEff, key⟩

def readWeight : Reader WeightRecord := do
  let validator ← fixedUint 32
  let weight ← uint 8
  return ⟨validator, weight⟩

/-- The body of `decode`; a key takes 64 bytes in memory and a weight 40. -/
def read (memory : ℕ) : Reader RegistryPayload := do
  expect registryMagic
  expectByte registryVersion
  let flags ← byte
  let settledView ← readSettledView flags
  let keys ← counted memory 64 readKey
  let weights ← counted memory 40 readWeight
  return ⟨keys, weights, settledView⟩

def decode (memory : ℕ) (extraData : Bytes) : Except Stop RegistryPayload :=
  whole (read memory) extraData

end RegistryPayload
end RethNode

/-! ### The payloads of one and of the other -/

def RecordKey.toNode (k : RecordKey) : RethNode.KeyRecord := ⟨k.validator, k.vEff, k.key⟩

def weightToNode (w : NodeId × ℕ) : RethNode.WeightRecord := ⟨w.1, w.2⟩

def RegistryPayload.toNode (p : RegistryPayload) : RethNode.RegistryPayload where
  keys := p.keys.map RecordKey.toNode
  weights := p.weights.map weightToNode
  settledView := p.settledView

/-- The ranges of the types of a key's fields. -/
structure RecordKey.InRange (k : RecordKey) : Prop where
  validator : k.validator < 256 ^ 32
  vEff : k.vEff < 256 ^ 8
  key : k.key.length = blsKeyLen

/-- The ranges of the types of a payload's fields, and fewer than `2 ^ 32` entries. -/
structure RegistryPayload.InRange (p : RegistryPayload) : Prop where
  keys : p.keys.length < 2 ^ 32 ∧ ∀ k ∈ p.keys, k.InRange
  weights : p.weights.length < 2 ^ 32 ∧ ∀ w ∈ p.weights, w.1 < 256 ^ 32 ∧ w.2 < 256 ^ 8
  settledView : ∀ view ∈ p.settledView, view < 256 ^ 8

/-- The bytes with all bits of the flags cleared but the one that is read. -/
def clearFlags (extraData : Bytes) : Bytes := extraData.modify 5 (· &&& 1)

namespace RegistryPayload

/-- The payload behind any flags. -/
def encodeWith (p : RegistryPayload) (flags : UInt8) : Bytes :=
  registryMagic ++ ([registryVersion] ++ ([flags] ++ (p.settledView.elim [] (bigEndian 8) ++
    (bigEndian 4 p.keys.length ++ p.keys.flatMap RecordKey.encode ++
      (bigEndian 4 p.weights.length ++ p.weights.flatMap encodeWeight)))))

theorem encode_eq (p : RegistryPayload) : p.encode = p.encodeWith p.flags := rfl

/-- What is accepted as a payload: its encoding, whatever the bits of the flags that are not
read. -/
def accepted (p : RegistryPayload) (bytes : Bytes) : Prop :=
  p.InRange ∧ ∃ flags, (p.settledView.isSome = true ↔ flags &&& 1 ≠ 0) ∧
    bytes = p.encodeWith flags

/-- The lists of keys and weights are granted, where a key takes `size` bytes. -/
def Fits (memory size : ℕ) (p : RegistryPayload) : Prop :=
  p.keys.length * size ≤ memory ∧ p.weights.length * 40 ≤ memory

/-- The bytes begin a payload with a number of keys for which no memory is granted, or with its
keys and then a number of weights for which none is. -/
def Overdraws (memory size : ℕ) (bytes : Bytes) : Prop :=
  ∃ (flags : UInt8) (view : Option ℕ) (count : ℕ) (rest : Bytes),
    ((view.isSome = true ↔ flags &&& 1 ≠ 0) ∧ ∀ v ∈ view, v < 256 ^ 8) ∧ count < 2 ^ 32 ∧
    bytes = registryMagic ++ ([registryVersion] ++ ([flags] ++ (view.elim [] (bigEndian 8) ++
      (bigEndian 4 count ++ rest)))) ∧
    (memory < count * size ∨ ∃ (keys : List RecordKey) (weights : ℕ) (more : Bytes),
      keys.length = count ∧ (∀ k ∈ keys, k.InRange) ∧ weights < 2 ^ 32 ∧
      rest = keys.flatMap RecordKey.encode ++ (bigEndian 4 weights ++ more) ∧
      memory < weights * 40)

end RegistryPayload

/-! ### What the readers accept -/

theorem reads_settledView (flags : UInt8) :
    Reads (encodings (fun view : Option ℕ => (view.isSome = true ↔ flags &&& 1 ≠ 0) ∧
        ∀ v ∈ view, v < 256 ^ 8) fun view => view.elim [] (bigEndian 8))
      (readSettledView flags) := by
  unfold readSettledView
  by_cases hflags : flags &&& 1 ≠ 0
  · rw [if_pos hflags]
    have hbind := (reads_uint 8).bind fun n _ => reads_pure (some n)
    refine hbind.congr fun view bytes => ?_
    cases view with
    | none => simp [parts, encodings, hflags]
    | some v =>
      simp only [parts, encodings, Option.isSome_some, Option.mem_def, Option.some.injEq,
        Option.elim_some]
      constructor
      · rintro ⟨n, x, y, ⟨hn, rfl⟩, ⟨rfl, rfl⟩, rfl⟩
        exact ⟨⟨by simp [hflags], fun _ hv => hv ▸ hn⟩, by simp⟩
      · rintro ⟨⟨-, hv⟩, rfl⟩
        exact ⟨v, _, [], ⟨hv v rfl, rfl⟩, ⟨rfl, rfl⟩, by simp⟩
  · rw [if_neg hflags]
    refine (reads_pure none).congr fun view bytes => ?_
    cases view with
    | none => simp [encodings, hflags]
    | some v => simp [encodings, hflags]

theorem frugal_settledView (flags : UInt8) : Frugal (readSettledView flags) := by
  unfold readSettledView
  split
  · exact (frugal_uint 8).bind fun n => frugal_pure (some n)
  · exact frugal_pure none

/-- A validator with a view, and then bytes. -/
theorem reads_record {κ : Type} {r : Reader ℕ} {r' : Reader Bytes}
    (hr : Reads (encodings (· < 256 ^ 32) (bigEndian 32)) r)
    (hr' : Reads (encodings (fun bytes => bytes.length = blsKeyLen) id) r')
    (build : ℕ → ℕ → Bytes → κ) :
    Reads (fun k bytes => ∃ v e key, v < 256 ^ 32 ∧ e < 256 ^ 8 ∧ key.length = blsKeyLen ∧
        k = build v e key ∧ bytes = bigEndian 32 v ++ (bigEndian 8 e ++ key))
      (do return build (← r) (← uint 8) (← r')) := by
  have hbind := hr.bind fun v _ => (reads_uint 8).bind fun e _ => hr'.bind fun key _ =>
    reads_pure (build v e key)
  refine hbind.congr fun k bytes => ?_
  simp only [parts, encodings, id]
  constructor
  · rintro ⟨v, _, _, ⟨hv, rfl⟩, ⟨e, _, _, ⟨he, rfl⟩, ⟨_, key, _, ⟨hkey, rfl⟩, ⟨rfl, rfl⟩, rfl⟩,
      rfl⟩, rfl⟩
    exact ⟨v, e, key, hv, he, hkey, rfl, by simp⟩
  · rintro ⟨v, e, key, hv, he, hkey, rfl, rfl⟩
    exact ⟨v, _, _, ⟨hv, rfl⟩, ⟨e, _, _, ⟨he, rfl⟩, ⟨key, _, [], ⟨hkey, rfl⟩, ⟨rfl, rfl⟩, rfl⟩,
      rfl⟩, by simp⟩

theorem frugal_record {κ : Type} {r : Reader ℕ} {r' : Reader Bytes} (hr : Frugal r)
    (hr' : Frugal r') (build : ℕ → ℕ → Bytes → κ) :
    Frugal (do return build (← r) (← uint 8) (← r')) :=
  hr.bind fun v => (frugal_uint 8).bind fun e => hr'.bind fun key => frugal_pure (build v e key)

/-- A validator with a weight. -/
theorem reads_weighed {ω : Type} {r : Reader ℕ}
    (hr : Reads (encodings (· < 256 ^ 32) (bigEndian 32)) r) (build : ℕ → ℕ → ω) :
    Reads (fun x bytes => ∃ v n, v < 256 ^ 32 ∧ n < 256 ^ 8 ∧ x = build v n ∧
        bytes = bigEndian 32 v ++ bigEndian 8 n)
      (do return build (← r) (← uint 8)) := by
  have hbind := hr.bind fun v _ => (reads_uint 8).bind fun n _ => reads_pure (build v n)
  refine hbind.congr fun x bytes => ?_
  simp only [parts, encodings]
  constructor
  · rintro ⟨v, _, _, ⟨hv, rfl⟩, ⟨n, _, _, ⟨hn, rfl⟩, ⟨rfl, rfl⟩, rfl⟩, rfl⟩
    exact ⟨v, n, hv, hn, rfl, by simp⟩
  · rintro ⟨v, n, hv, hn, rfl, rfl⟩
    exact ⟨v, _, _, ⟨hv, rfl⟩, ⟨n, _, [], ⟨hn, rfl⟩, ⟨rfl, rfl⟩, rfl⟩, by simp⟩

theorem frugal_weighed {ω : Type} {r : Reader ℕ} (hr : Frugal r) (build : ℕ → ℕ → ω) :
    Frugal (do return build (← r) (← uint 8)) :=
  hr.bind fun v => (frugal_uint 8).bind fun n => frugal_pure (build v n)

section
variable {κ ω π : Type} {P : κ → Prop} {f : κ → Bytes} {Q : ω → Prop} {g : ω → Bytes}
  {key : Reader κ} {weight : Reader ω}

/-- A payload of keys and weights that are read one by one. -/
theorem reads_payload (memory size : ℕ) (hsize : size < 2 ^ 31)
    (hkey : Reads (encodings P f) key) (hweight : Reads (encodings Q g) weight)
    (build : List κ → List ω → Option ℕ → π) :
    Reads (fun p bytes => ∃ flags view keys weights,
        ((view.isSome = true ↔ flags &&& 1 ≠ 0) ∧ ∀ v ∈ view, v < 256 ^ 8) ∧
        (keys.length < 2 ^ 32 ∧ keys.length * size ≤ memory ∧ ∀ k ∈ keys, P k) ∧
        (weights.length < 2 ^ 32 ∧ weights.length * 40 ≤ memory ∧ ∀ w ∈ weights, Q w) ∧
        p = build keys weights view ∧
        bytes = registryMagic ++ ([registryVersion] ++ ([flags] ++
          (view.elim [] (bigEndian 8) ++ (bigEndian 4 keys.length ++ keys.flatMap f ++
            (bigEndian 4 weights.length ++ weights.flatMap g))))))
      (do
        expect registryMagic
        expectByte registryVersion
        let flags ← byte
        let settledView ← readSettledView flags
        let keys ← counted memory size key
        let weights ← counted memory 40 weight
        return build keys weights settledView) := by
  have hbind := (reads_expect registryMagic).bind fun _ _ =>
    (reads_expectByte registryVersion).bind fun _ _ => reads_byte.bind fun flags _ =>
      (reads_settledView flags).bind fun view _ =>
        (reads_counted memory size hkey hsize).bind fun keys _ =>
          (reads_counted memory 40 hweight (by norm_num)).bind fun weights _ =>
            reads_pure (build keys weights view)
  refine hbind.congr fun p bytes => ?_
  simp only [parts, encodings]
  constructor
  · rintro ⟨_, _, _, ⟨-, rfl⟩, ⟨_, _, _, ⟨-, rfl⟩, ⟨flags, _, _, ⟨-, rfl⟩,
      ⟨view, _, _, ⟨hview, rfl⟩, ⟨keys, _, _, ⟨hkeys, rfl⟩, ⟨weights, _, _, ⟨hweights, rfl⟩,
        ⟨rfl, rfl⟩, rfl⟩, rfl⟩, rfl⟩, rfl⟩, rfl⟩, rfl⟩
    exact ⟨flags, view, keys, weights, hview, hkeys, hweights, rfl, by rw [List.append_nil]⟩
  · rintro ⟨flags, view, keys, weights, hview, hkeys, hweights, rfl, rfl⟩
    exact ⟨(), _, _, ⟨trivial, rfl⟩, ⟨(), _, _, ⟨trivial, rfl⟩, ⟨flags, _, _, ⟨trivial, rfl⟩,
      ⟨view, _, _, ⟨hview, rfl⟩, ⟨keys, _, _, ⟨hkeys, rfl⟩, ⟨weights, _, [], ⟨hweights, rfl⟩,
        ⟨rfl, rfl⟩, rfl⟩, rfl⟩, rfl⟩, rfl⟩, rfl⟩, by rw [List.append_nil]⟩

theorem aborts_payload (memory size : ℕ) (hsize : size < 2 ^ 31)
    (hkey : Reads (encodings P f) key) (hfkey : Frugal key)
    (hweight : Reads (encodings Q g) weight) (hfweight : Frugal weight)
    (build : List κ → List ω → Option ℕ → π) :
    Aborts (fun bytes => ∃ (flags : UInt8) (view : Option ℕ) (count : ℕ) (rest : Bytes),
        ((view.isSome = true ↔ flags &&& 1 ≠ 0) ∧ ∀ v ∈ view, v < 256 ^ 8) ∧ count < 2 ^ 32 ∧
        bytes = registryMagic ++ ([registryVersion] ++ ([flags] ++
          (view.elim [] (bigEndian 8) ++ (bigEndian 4 count ++ rest)))) ∧
        (memory < count * size ∨ ∃ (keys : List κ) (weights : ℕ) (more : Bytes),
          keys.length = count ∧ (∀ k ∈ keys, P k) ∧ weights < 2 ^ 32 ∧
          rest = keys.flatMap f ++ (bigEndian 4 weights ++ more) ∧ memory < weights * 40))
      (do
        expect registryMagic
        expectByte registryVersion
        let flags ← byte
        let settledView ← readSettledView flags
        let keys ← counted memory size key
        let weights ← counted memory 40 weight
        return build keys weights settledView) := by
  have hkeys := aborts_counted memory size hkey hfkey hsize
  have hweights := aborts_counted memory 40 hweight hfweight (by norm_num)
  have hbind := (frugal_expect registryMagic).before (reads_expect _) fun _ _ =>
    (frugal_expectByte registryVersion).before (reads_expectByte _) fun _ _ =>
      frugal_byte.before reads_byte fun flags _ =>
        (frugal_settledView flags).before (reads_settledView flags) fun view _ =>
          hkeys.bind (reads_counted memory size hkey hsize) fun keys _ =>
            hweights.bind (reads_counted memory 40 hweight (by norm_num)) fun weights _ =>
              frugal_pure (build keys weights view)
  refine hbind.congr fun bytes => ?_
  constructor
  · rintro ⟨_, _, _, ⟨-, rfl⟩, rfl, _, _, _, ⟨-, rfl⟩, rfl, flags, _, _, ⟨-, rfl⟩, rfl,
      view, _, _, ⟨hview, rfl⟩, rfl, hover | ⟨keys, _, _, ⟨⟨hlen, -, hall⟩, rfl⟩, rfl,
        hover | ⟨_, _, _, _, _, hfalse⟩⟩⟩
    · obtain ⟨count, rest, hcount, rfl, hlarge⟩ := overdrawn_iff.mp hover
      exact ⟨flags, view, count, rest, hview, hcount, rfl, .inl hlarge⟩
    · obtain ⟨count, rest, hcount, rfl, hlarge⟩ := overdrawn_iff.mp hover
      exact ⟨flags, view, keys.length, keys.flatMap f ++ (bigEndian 4 count ++ rest), hview, hlen,
        by simp, .inr ⟨keys, count, rest, rfl, hall, hcount, rfl, hlarge⟩⟩
    · exact hfalse.elim
  · rintro ⟨flags, view, count, rest, hview, hcount, rfl, hover⟩
    refine ⟨(), _, _, ⟨trivial, rfl⟩, rfl, (), _, _, ⟨trivial, rfl⟩, rfl, flags, _, _,
      ⟨trivial, rfl⟩, rfl, view, _, _, ⟨hview, rfl⟩, rfl, ?_⟩
    by_cases hlarge : memory < count * size
    · exact .inl (overdrawn_iff.mpr ⟨count, rest, hcount, rfl, hlarge⟩)
    · obtain ⟨keys, weights, more, rfl, hall, hweights, rfl, hmany⟩ := hover.resolve_left hlarge
      exact .inr ⟨keys, _, _, ⟨⟨hcount, Nat.not_lt.mp hlarge, hall⟩, rfl⟩, by simp,
        .inl (overdrawn_iff.mpr ⟨weights, more, hweights, rfl, hmany⟩)⟩

end

namespace RegistryPayload

theorem reads_readKey : Reads (encodings RecordKey.InRange RecordKey.encode) readKey := by
  have hrecord := reads_record (reads_uint 32) (reads_array blsKeyLen) RecordKey.mk
  refine hrecord.congr fun k bytes => ?_
  constructor
  · rintro ⟨v, e, key, hv, he, hkey, rfl, rfl⟩
    exact ⟨⟨hv, he, hkey⟩, rfl⟩
  · rintro ⟨hrange, rfl⟩
    exact ⟨k.validator, k.vEff, k.key, hrange.validator, hrange.vEff, hrange.key, rfl, rfl⟩

theorem reads_readWeight :
    Reads (encodings (fun w : NodeId × ℕ => w.1 < 256 ^ 32 ∧ w.2 < 256 ^ 8) encodeWeight)
      readWeight := by
  have hweighed := reads_weighed (reads_uint 32) (Prod.mk (α := NodeId) (β := ℕ))
  refine hweighed.congr fun w bytes => ?_
  constructor
  · rintro ⟨v, n, hv, hn, rfl, rfl⟩
    exact ⟨⟨hv, hn⟩, rfl⟩
  · rintro ⟨⟨hv, hn⟩, rfl⟩
    exact ⟨w.1, w.2, hv, hn, rfl, rfl⟩

theorem frugal_readKey : Frugal readKey :=
  frugal_record (frugal_uint 32) (frugal_array blsKeyLen) RecordKey.mk

theorem frugal_readWeight : Frugal readWeight :=
  frugal_weighed (frugal_uint 32) (Prod.mk (α := NodeId) (β := ℕ))

theorem reads_read (memory : ℕ) :
    Reads (fun p bytes => accepted p bytes ∧ p.Fits memory 168) (read memory) := by
  have hpayload := reads_payload memory 168 (by norm_num) reads_readKey reads_readWeight
    RegistryPayload.mk
  refine hpayload.congr fun p bytes => ?_
  constructor
  · rintro ⟨flags, view, keys, weights, ⟨hview, hrange⟩, ⟨hkeys, hfits, hall⟩,
      ⟨hweights, hfits', hall'⟩, rfl, rfl⟩
    exact ⟨⟨⟨⟨hkeys, hall⟩, ⟨hweights, hall'⟩, hrange⟩, flags, hview, rfl⟩, hfits, hfits'⟩
  · rintro ⟨⟨hrange, flags, hview, rfl⟩, hfits, hfits'⟩
    exact ⟨flags, p.settledView, p.keys, p.weights, ⟨hview, hrange.settledView⟩,
      ⟨hrange.keys.1, hfits, hrange.keys.2⟩, ⟨hrange.weights.1, hfits', hrange.weights.2⟩, rfl,
      rfl⟩

theorem aborts_read (memory : ℕ) : Aborts (Overdraws memory 168) (read memory) :=
  aborts_payload memory 168 (by norm_num) reads_readKey frugal_readKey reads_readWeight
    frugal_readWeight RegistryPayload.mk

theorem decode_iff (memory : ℕ) (bytes : Bytes) (p : RegistryPayload) :
    decode memory bytes = .ok p ↔ accepted p bytes ∧ p.Fits memory 168 :=
  (reads_read memory).whole_iff bytes p

theorem decode_aborts_iff (memory : ℕ) (bytes : Bytes) :
    decode memory bytes = .error .aborted ↔ Overdraws memory 168 bytes :=
  (aborts_read memory).whole_iff bytes

/-- A payload of which a list is not granted is accepted from bytes whose numbers show it. -/
theorem fits_of_accepted {memory size : ℕ} {p : RegistryPayload} {bytes : Bytes}
    (h : p.accepted bytes) (hover : ¬ Overdraws memory size bytes) : p.Fits memory size := by
  obtain ⟨hrange, flags, hview, rfl⟩ := h
  by_contra hfits
  refine hover ⟨flags, p.settledView, p.keys.length, p.keys.flatMap RecordKey.encode ++
    (bigEndian 4 p.weights.length ++ p.weights.flatMap encodeWeight), ⟨hview, hrange.settledView⟩,
    hrange.keys.1, by simp [encodeWith], ?_⟩
  rcases not_and_or.mp hfits with hkeys | hweights
  · exact .inl (Nat.not_le.mp hkeys)
  · exact .inr ⟨p.keys, p.weights.length, p.weights.flatMap encodeWeight, rfl, hrange.keys.2,
      hrange.weights.1, rfl, Nat.not_le.mp hweights⟩

theorem flags_iff (p : RegistryPayload) : p.settledView.isSome = true ↔ p.flags &&& 1 ≠ 0 := by
  unfold flags
  cases p.settledView with
  | none => decide
  | some view =>
    have hset : (0 ||| 1 : UInt8) &&& 1 ≠ 0 := by decide
    exact iff_of_true rfl hset

end RegistryPayload

namespace RethNode

theorem flatMap_toNode (keys : List RecordKey) :
    (keys.map RecordKey.toNode).flatMap KeyRecord.encode = keys.flatMap RecordKey.encode :=
  List.flatMap_map ..

theorem flatMap_weightToNode (weights : List (NodeId × ℕ)) :
    (weights.map weightToNode).flatMap WeightRecord.encode = weights.flatMap encodeWeight :=
  List.flatMap_map ..

theorem toNode_encode (p : Boule.RegistryPayload) : p.toNode.encode = p.encode := by
  unfold RegistryPayload.encode Boule.RegistryPayload.encode Boule.RegistryPayload.toNode
  rw [flatMap_toNode, flatMap_weightToNode, List.length_map, List.length_map]
  rfl

/-- Each payload is that of a payload on the other side. -/
theorem exists_toNode (q : RegistryPayload) : ∃ p : Boule.RegistryPayload, p.toNode = q := by
  refine ⟨⟨q.keys.map fun k => ⟨k.validator, k.vEff, k.key⟩,
    q.weights.map fun w => (w.validator, w.weight), q.settledView⟩, ?_⟩
  simp [Boule.RegistryPayload.toNode, RecordKey.toNode, weightToNode, Function.comp_def]

theorem reads_readKey :
    Reads (encodings (fun k : KeyRecord => (⟨k.validator, k.vEff, k.key⟩ : RecordKey).InRange)
      KeyRecord.encode) RegistryPayload.readKey := by
  have hrecord := reads_record (reads_fixedUint 32) (reads_take blsKeyLen) KeyRecord.mk
  refine hrecord.congr fun k bytes => ?_
  constructor
  · rintro ⟨v, e, key, hv, he, hkey, rfl, rfl⟩
    exact ⟨⟨hv, he, hkey⟩, rfl⟩
  · rintro ⟨hrange, rfl⟩
    exact ⟨k.validator, k.vEff, k.key, hrange.validator, hrange.vEff, hrange.key, rfl, rfl⟩

theorem reads_readWeight :
    Reads (encodings (fun w : WeightRecord => w.validator < 256 ^ 32 ∧ w.weight < 256 ^ 8)
      WeightRecord.encode) RegistryPayload.readWeight := by
  have hweighed := reads_weighed (reads_fixedUint 32) WeightRecord.mk
  refine hweighed.congr fun w bytes => ?_
  constructor
  · rintro ⟨v, n, hv, hn, rfl, rfl⟩
    exact ⟨⟨hv, hn⟩, rfl⟩
  · rintro ⟨⟨hv, hn⟩, rfl⟩
    exact ⟨w.validator, w.weight, hv, hn, rfl, rfl⟩

theorem frugal_readKey : Frugal RegistryPayload.readKey :=
  frugal_record (frugal_fixedUint 32) (frugal_take blsKeyLen) KeyRecord.mk

theorem frugal_readWeight : Frugal RegistryPayload.readWeight :=
  frugal_weighed (frugal_fixedUint 32) WeightRecord.mk

theorem reads_read (memory : ℕ) :
    Reads (fun q bytes => ∃ p : Boule.RegistryPayload, p.toNode = q ∧ p.accepted bytes ∧
        p.Fits memory 64) (RegistryPayload.read memory) := by
  have hpayload := reads_payload memory 64 (by norm_num) reads_readKey reads_readWeight
    RegistryPayload.mk
  refine hpayload.congr fun q bytes => ?_
  constructor
  · rintro ⟨flags, view, keys, weights, ⟨hview, hrange⟩, hkeys, hweights, rfl, rfl⟩
    obtain ⟨p, hp⟩ := exists_toNode ⟨keys, weights, view⟩
    obtain ⟨rfl, rfl, rfl⟩ := RegistryPayload.mk.inj hp
    rw [List.length_map, List.forall_mem_map] at hkeys hweights
    rw [flatMap_toNode, flatMap_weightToNode, List.length_map, List.length_map]
    exact ⟨p, rfl, ⟨⟨⟨hkeys.1, hkeys.2.2⟩, ⟨hweights.1, hweights.2.2⟩, hrange⟩, flags, hview, rfl⟩,
      hkeys.2.1, hweights.2.1⟩
  · rintro ⟨p, rfl, ⟨hrange, flags, hview, rfl⟩, hfits, hfits'⟩
    refine ⟨flags, p.settledView, p.keys.map RecordKey.toNode, p.weights.map weightToNode,
      ⟨hview, hrange.settledView⟩, ?_, ?_, rfl, ?_⟩
    · rw [List.length_map, List.forall_mem_map]
      exact ⟨hrange.keys.1, hfits, hrange.keys.2⟩
    · rw [List.length_map, List.forall_mem_map]
      exact ⟨hrange.weights.1, hfits', hrange.weights.2⟩
    · rw [flatMap_toNode, flatMap_weightToNode, List.length_map, List.length_map]
      rfl

theorem aborts_read (memory : ℕ) :
    Aborts (Boule.RegistryPayload.Overdraws memory 64) (RegistryPayload.read memory) := by
  have hpayload := aborts_payload memory 64 (by norm_num) reads_readKey frugal_readKey
    reads_readWeight frugal_readWeight RegistryPayload.mk
  refine hpayload.congr fun bytes => ?_
  constructor
  · rintro ⟨flags, view, count, rest, hview, hcount, rfl, hover⟩
    refine ⟨flags, view, count, rest, hview, hcount, rfl, hover.imp_right ?_⟩
    rintro ⟨keys, weights, more, hlen, hall, hweights, rfl, hmany⟩
    obtain ⟨p, hp⟩ := exists_toNode ⟨keys, [], none⟩
    obtain ⟨rfl, -, -⟩ := RegistryPayload.mk.inj hp
    rw [List.length_map] at hlen
    rw [List.forall_mem_map] at hall
    exact ⟨p.keys, weights, more, hlen, hall, hweights, by rw [flatMap_toNode], hmany⟩
  · rintro ⟨flags, view, count, rest, hview, hcount, rfl, hover⟩
    refine ⟨flags, view, count, rest, hview, hcount, rfl, hover.imp_right ?_⟩
    rintro ⟨keys, weights, more, hlen, hall, hweights, rfl, hmany⟩
    refine ⟨keys.map RecordKey.toNode, weights, more, ?_, ?_, hweights, ?_, hmany⟩
    · rw [List.length_map, hlen]
    · rw [List.forall_mem_map]
      exact hall
    · rw [flatMap_toNode]

theorem decode_iff (memory : ℕ) (bytes : Bytes) (q : RegistryPayload) :
    RegistryPayload.decode memory bytes = .ok q ↔
      ∃ p : Boule.RegistryPayload, p.toNode = q ∧ p.accepted bytes ∧ p.Fits memory 64 :=
  (reads_read memory).whole_iff bytes q

theorem decode_aborts_iff (memory : ℕ) (bytes : Bytes) :
    RegistryPayload.decode memory bytes = .error .aborted ↔
      Boule.RegistryPayload.Overdraws memory 64 bytes :=
  (aborts_read memory).whole_iff bytes

end RethNode

/-! ### The two codecs -/

namespace RegistryPayload

theorem clearFlags_encodeWith (p : RegistryPayload) (flags : UInt8) :
    clearFlags (p.encodeWith flags) = p.encodeWith (flags &&& 1) := rfl

theorem lowest_bit (flags : UInt8) (h : flags &&& 1 ≠ 0) : flags &&& 1 = 1 := by
  have hnat : (flags &&& 1).toNat = flags.toNat % 2 := by
    rw [UInt8.toNat_and]
    exact Nat.and_one_is_mod _
  have hne : (flags &&& 1).toNat ≠ 0 := fun h0 => h (UInt8.toNat_inj.mp h0)
  have hone : (flags &&& 1).toNat = 1 := by omega
  exact UInt8.toNat_inj.mp hone

/-- Flags that announce the view as the payload has it differ from its own in unread bits only. -/
theorem flags_eq {p : RegistryPayload} {flags : UInt8}
    (h : p.settledView.isSome = true ↔ flags &&& 1 ≠ 0) : flags &&& 1 = p.flags := by
  unfold RegistryPayload.flags
  by_cases hview : p.settledView.isSome = true
  · rw [if_pos hview]
    exact lowest_bit flags (h.mp hview)
  · rw [if_neg hview]
    exact not_not.mp fun hne => hview (h.mpr hne)

theorem clearFlags_of_accepted {p : RegistryPayload} {bytes : Bytes} (h : p.accepted bytes) :
    clearFlags bytes = p.encode := by
  obtain ⟨-, flags, hflags, rfl⟩ := h
  rw [clearFlags_encodeWith, flags_eq hflags, encode_eq]

/-- Bytes that are an encoding once their flags are cleared are accepted. -/
theorem accepted_of_clearFlags {p : RegistryPayload} {bytes : Bytes} (hrange : p.InRange)
    (h : clearFlags bytes = p.encode) : p.accepted bytes := by
  have hsix : 5 < bytes.length := by
    have hlen := congrArg List.length h
    rw [clearFlags, List.length_modify, encode_eq, encodeWith] at hlen
    simp [registryMagic] at hlen
    omega
  rw [clearFlags, List.modify_eq_take_cons_drop hsix] at h
  have hfive : (bytes.take 5).length = (registryMagic ++ [registryVersion]).length := by
    rw [List.length_take, Nat.min_eq_left (by omega)]
    rfl
  obtain ⟨hfront, hrest⟩ :=
    @List.append_inj _ _ (registryMagic ++ [registryVersion]) _ _ h hfive
  obtain ⟨hflags, hbody⟩ := List.cons.inj hrest
  have hbytes : bytes = p.encodeWith bytes[5] := by
    calc bytes = bytes.take 5 ++ bytes[5] :: bytes.drop 6 := by
          rw [List.getElem_cons_drop, List.take_append_drop]
      _ = p.encodeWith bytes[5] := by
          rw [hfront, hbody]
          rfl
  have hview : p.settledView.isSome = true ↔ bytes[5] &&& 1 ≠ 0 := by
    rw [hflags, ← flags_eq p.flags_iff]
    exact p.flags_iff
  exact ⟨hrange, bytes[5], hview, hbytes⟩

/-- Whether no unread bit of the flags is set, in bytes that are an encoding without these bits. -/
def FlagsClear (bytes : Bytes) : Prop :=
  clearFlags bytes = bytes ∨ ∀ p : RegistryPayload, p.InRange → p.encode ≠ clearFlags bytes

section
variable {memory nodeMemory : ℕ} {bytes : Bytes}

theorem encode_of_decode_iff (hover : ¬ Overdraws memory 168 bytes) :
    (∀ p, decode memory bytes = .ok p → p.encode = bytes) ↔ FlagsClear bytes := by
  constructor
  · intro h
    by_cases hsome : ∃ p : RegistryPayload, p.InRange ∧ p.encode = clearFlags bytes
    · obtain ⟨p, hrange, hp⟩ := hsome
      have haccepted := accepted_of_clearFlags hrange hp.symm
      have hok : decode memory bytes = .ok p :=
        (decode_iff memory bytes p).mpr ⟨haccepted, fits_of_accepted haccepted hover⟩
      exact .inl (hp.symm.trans (h p hok))
    · exact .inr fun p hrange hp => hsome ⟨p, hrange, hp⟩
  · intro h p hok
    have haccepted := ((decode_iff memory bytes p).mp hok).1
    have hclear := clearFlags_of_accepted haccepted
    rcases h with hsame | hnone
    · rw [← hclear, hsame]
    · exact absurd hclear.symm (hnone p haccepted.1)

theorem eq_rejected (hover : ¬ Overdraws memory 168 bytes) {stop : Stop}
    (h : decode memory bytes = .error stop) : stop = .rejected := by
  cases stop with
  | rejected => rfl
  | panicked => exact absurd h ((reads_read memory).whole_safe bytes)
  | aborted => exact absurd ((decode_aborts_iff memory bytes).mp h) hover

theorem node_eq_rejected (hover : ¬ Overdraws nodeMemory 64 bytes) {stop : Stop}
    (h : RethNode.RegistryPayload.decode nodeMemory bytes = .error stop) : stop = .rejected := by
  cases stop with
  | rejected => rfl
  | panicked => exact absurd h ((RethNode.reads_read nodeMemory).whole_safe bytes)
  | aborted => exact absurd ((RethNode.decode_aborts_iff nodeMemory bytes).mp h) hover

/-- Both sides read the same from a byte string for which both are granted their memory. -/
theorem decode_toNode (hover : ¬ Overdraws memory 168 bytes)
    (hnode : ¬ Overdraws nodeMemory 64 bytes) :
    RethNode.RegistryPayload.decode nodeMemory bytes = (decode memory bytes).map toNode := by
  cases hright : RethNode.RegistryPayload.decode nodeMemory bytes with
  | ok q =>
    obtain ⟨p, rfl, haccepted, -⟩ := (RethNode.decode_iff nodeMemory bytes q).mp hright
    rw [(decode_iff memory bytes p).mpr ⟨haccepted, fits_of_accepted haccepted hover⟩]
    rfl
  | error e =>
    cases hleft : decode memory bytes with
    | ok p =>
      have haccepted := ((decode_iff memory bytes p).mp hleft).1
      have hok := (RethNode.decode_iff nodeMemory bytes p.toNode).mpr
        ⟨p, rfl, haccepted, fits_of_accepted haccepted hnode⟩
      rw [hright] at hok
      cases hok
    | error e' =>
      rw [node_eq_rejected hnode hright, eq_rejected hover hleft]
      rfl

end

/-- The two codecs are the same codec on a byte string, and it is the only one for the payload that
it decodes to, exactly when no unread bit of its flags is set and none of its numbers asks either
side for memory that is refused. -/
theorem same_codec_iff (memory nodeMemory : ℕ) (bytes : Bytes) :
    (RethNode.RegistryPayload.decode nodeMemory bytes = (decode memory bytes).map toNode ∧
        (∀ stop, decode memory bytes = .error stop → stop = .rejected) ∧
        (∀ p : RegistryPayload, p.toNode.encode = p.encode) ∧
        (∀ p : RegistryPayload, p.InRange → p.encode = bytes →
          decode memory bytes = .ok p ∧
            RethNode.RegistryPayload.decode nodeMemory bytes = .ok p.toNode) ∧
        (∀ p, decode memory bytes = .ok p → p.encode = bytes) ∧
        (∀ q, RethNode.RegistryPayload.decode nodeMemory bytes = .ok q → q.encode = bytes)) ↔
      FlagsClear bytes ∧ ¬ Overdraws memory 168 bytes ∧ ¬ Overdraws nodeMemory 64 bytes := by
  constructor
  · rintro ⟨hsame, hstop, -, -, hcanonical, -⟩
    have hover : ¬ Overdraws memory 168 bytes := by
      intro hover
      cases hstop .aborted ((decode_aborts_iff memory bytes).mpr hover)
    have hnode : ¬ Overdraws nodeMemory 64 bytes := by
      intro hnode
      rw [(RethNode.decode_aborts_iff nodeMemory bytes).mpr hnode] at hsame
      cases hleft : decode memory bytes with
      | ok p =>
        rw [hleft] at hsame
        cases hsame
      | error e =>
        rw [eq_rejected hover hleft] at hleft
        rw [hleft] at hsame
        cases hsame
    exact ⟨(encode_of_decode_iff hover).mp hcanonical, hover, hnode⟩
  · rintro ⟨hclear, hover, hnode⟩
    have hcanonical := (encode_of_decode_iff hover).mpr hclear
    have hsame := decode_toNode hover hnode
    refine ⟨hsame, fun _ => eq_rejected hover, RethNode.toNode_encode, ?_, hcanonical, ?_⟩
    · rintro p hrange rfl
      have haccepted : p.accepted p.encode := ⟨hrange, p.flags, p.flags_iff, rfl⟩
      have hok : decode memory p.encode = .ok p :=
        (decode_iff memory _ p).mpr ⟨haccepted, fits_of_accepted haccepted hover⟩
      refine ⟨hok, ?_⟩
      rw [hsame, hok]
      rfl
    · intro q hq
      obtain ⟨p, rfl, haccepted, -⟩ := (RethNode.decode_iff nodeMemory bytes q).mp hq
      rw [RethNode.toNode_encode]
      exact hcanonical p ((decode_iff memory bytes p).mpr
        ⟨haccepted, fits_of_accepted haccepted hover⟩)

end RegistryPayload

namespace Sample

/-- An empty payload, once with flags of 0 and once with an unread bit set. -/
def markedExtraData : Bytes := [0x42, 0x4c, 0x52, 0x31, 1, 2, 0, 0, 0, 0, 0, 0, 0, 0]

/-- A payload of `2 ^ 32 - 1` keys, of which there is none. -/
def announcedKeys : Bytes := [0x42, 0x4c, 0x52, 0x31, 1, 0, 0xff, 0xff, 0xff, 0xff]

/-- The unread bit is lost, and ten bytes abort both decoders where no more than 64 GiB are granted,
and one of them where no more than 512 GiB are. -/
theorem marked_flags_accepted :
    RegistryPayload.decode (2 ^ 36) markedExtraData = .ok ⟨[], [], none⟩ ∧
      RegistryPayload.decode (2 ^ 36) (RegistryPayload.encode ⟨[], [], none⟩) =
        .ok ⟨[], [], none⟩ ∧
      RegistryPayload.encode ⟨[], [], none⟩ ≠ markedExtraData ∧
      RegistryPayload.decode (2 ^ 36) announcedKeys = .error .aborted ∧
      RethNode.RegistryPayload.decode (2 ^ 36) announcedKeys = .error .aborted ∧
      RegistryPayload.decode (2 ^ 39) announcedKeys = .error .aborted ∧
      RethNode.RegistryPayload.decode (2 ^ 39) announcedKeys = .error .rejected := by decide

end Sample
end Boule
