import Boule.Lib.Cursor
import Boule.Reth.WeightProof

/-! The bytes of a set of weight proofs: three levels of entries with their lengths in front. -/
namespace Boule
open Framing Reading

/-- `WPR1`. -/
def weightProofMagic : Bytes := [0x57, 0x50, 0x52, 0x31]

def weightProofVersion : UInt8 := 1

namespace WeightProof

def encode (p : WeightProof Bytes Bytes) : Bytes :=
  bigEndian 32 p.nodeId ++ (bigEndian 8 p.weight ++ (bigEndian 32 p.anchorBlock ++
    (bigEndian 4 p.receiptIndex ++ (frame 4 p.receipt ++
      (bigEndian 4 p.proofNodes.length ++ p.proofNodes.flatMap (frame 4))))))

/-- The body of the loop of `decode`; a node takes 24 bytes in memory. -/
def read (memory : ℕ) : Reader (WeightProof Bytes Bytes) := do
  let nodeId ← uint 32
  let weight ← uint 8
  let anchorBlock ← uint 32
  let receiptIndex ← uint 4
  let receipt ← framed
  let proofNodes ← counted memory 24 framed
  return ⟨nodeId, weight, anchorBlock, receiptIndex, receipt, proofNodes⟩

/-- The ranges of the types of a proof's fields, and lengths of fewer than `2 ^ 32`. -/
structure InRange (p : WeightProof Bytes Bytes) : Prop where
  nodeId : p.nodeId < 256 ^ 32
  weight : p.weight < 256 ^ 8
  anchorBlock : p.anchorBlock < 256 ^ 32
  receiptIndex : p.receiptIndex < 256 ^ 4
  receipt : p.receipt.length < 2 ^ 32
  proofNodes : p.proofNodes.length < 2 ^ 32 ∧ ∀ node ∈ p.proofNodes, node.length < 2 ^ 32

/-- The list of nodes is granted. -/
def Fits (memory : ℕ) (p : WeightProof Bytes Bytes) : Prop := p.proofNodes.length * 24 ≤ memory

/-- The bytes are those of the fixed fields of a proof, of a receipt and of a number of nodes for
which no memory is granted. -/
def Overdraws (memory : ℕ) (bytes : Bytes) : Prop :=
  76 ≤ bytes.length ∧ ∃ receipt count rest, receipt.length < 2 ^ 32 ∧ count < 2 ^ 32 ∧
    memory < count * 24 ∧ bytes.drop 76 = frame 4 receipt ++ (bigEndian 4 count ++ rest)

theorem reads_read (memory : ℕ) :
    Reads (encodings (fun p => p.InRange ∧ p.Fits memory) encode) (read memory) := by
  have hbind := (reads_uint 32).bind fun node _ => (reads_uint 8).bind fun weight _ =>
    (reads_uint 32).bind fun anchor _ => (reads_uint 4).bind fun index _ =>
      reads_framed.bind fun receipt _ =>
        (reads_counted memory 24 reads_framed (by norm_num)).bind fun nodes _ =>
          reads_pure (⟨node, weight, anchor, index, receipt, nodes⟩ : WeightProof Bytes Bytes)
  refine hbind.congr fun p bytes => ?_
  simp only [parts, encodings]
  constructor
  · rintro ⟨node, _, _, ⟨hnode, rfl⟩, ⟨weight, _, _, ⟨hweight, rfl⟩, ⟨anchor, _, _, ⟨hanchor, rfl⟩,
      ⟨index, _, _, ⟨hindex, rfl⟩, ⟨receipt, _, _, ⟨hreceipt, rfl⟩,
      ⟨nodes, _, _, ⟨⟨hlen, hfits, hnodes⟩, rfl⟩, ⟨rfl, rfl⟩, rfl⟩, rfl⟩, rfl⟩, rfl⟩, rfl⟩, rfl⟩
    exact ⟨⟨⟨hnode, hweight, hanchor, hindex, hreceipt, hlen, hnodes⟩, hfits⟩,
      by rw [List.append_nil, encode]⟩
  · rintro ⟨⟨hrange, hfits⟩, rfl⟩
    have hnodes := hrange.proofNodes
    exact ⟨p.nodeId, _, _, ⟨hrange.nodeId, rfl⟩, ⟨p.weight, _, _, ⟨hrange.weight, rfl⟩,
      ⟨p.anchorBlock, _, _, ⟨hrange.anchorBlock, rfl⟩,
        ⟨p.receiptIndex, _, _, ⟨hrange.receiptIndex, rfl⟩,
          ⟨p.receipt, _, _, ⟨hrange.receipt, rfl⟩,
            ⟨p.proofNodes, _, [], ⟨⟨hnodes.1, hfits, hnodes.2⟩, rfl⟩, ⟨rfl, rfl⟩, rfl⟩, rfl⟩, rfl⟩,
          rfl⟩, rfl⟩, by rw [List.append_nil, encode]⟩

theorem aborts_read (memory : ℕ) : Aborts (Overdraws memory) (read memory) := by
  have hnodes := aborts_counted memory 24 reads_framed frugal_framed (by norm_num)
  have hbind := aborts_skipping 32 fun node => aborts_skipping 8 fun weight =>
    aborts_skipping 32 fun anchor => aborts_skipping 4 fun index =>
      frugal_framed.before reads_framed fun receipt _ =>
        hnodes.bind (reads_counted memory 24 reads_framed (by norm_num)) fun nodes _ =>
          frugal_pure (⟨node, weight, anchor, index, receipt, nodes⟩ : WeightProof Bytes Bytes)
  refine hbind.congr fun bytes => ?_
  rw [skipping_skipping, skipping_skipping, skipping_skipping]
  refine and_congr_right fun _ => ?_
  constructor
  · rintro ⟨receipt, _, rest, ⟨hreceipt, rfl⟩, hbytes, hover | ⟨_, _, _, _, _, hfalse⟩⟩
    · obtain ⟨count, rest, hcount, rfl, hlarge⟩ := overdrawn_iff.mp hover
      exact ⟨receipt, count, rest, hreceipt, hcount, hlarge, hbytes⟩
    · exact hfalse.elim
  · rintro ⟨receipt, count, rest, hreceipt, hcount, hlarge, hbytes⟩
    exact ⟨receipt, _, _, ⟨hreceipt, rfl⟩, hbytes,
      .inl (overdrawn_iff.mpr ⟨count, rest, hcount, rfl, hlarge⟩)⟩

/-- The number of nodes of a proof that does not fit shows it. -/
theorem overdraws_encode_append {memory : ℕ} {p : WeightProof Bytes Bytes} (hrange : p.InRange)
    (h : memory < p.proofNodes.length * 24) (rest : Bytes) :
    Overdraws memory (p.encode ++ rest) := by
  have hhead : (bigEndian 32 p.nodeId ++ (bigEndian 8 p.weight ++ (bigEndian 32 p.anchorBlock ++
      bigEndian 4 p.receiptIndex))).length = 76 := by simp [length_bigEndian]
  have hbytes : p.encode ++ rest = (bigEndian 32 p.nodeId ++ (bigEndian 8 p.weight ++
      (bigEndian 32 p.anchorBlock ++ bigEndian 4 p.receiptIndex))) ++ (frame 4 p.receipt ++
      (bigEndian 4 p.proofNodes.length ++ (p.proofNodes.flatMap (frame 4) ++ rest))) := by
    simp [encode]
  refine ⟨?_, p.receipt, p.proofNodes.length, p.proofNodes.flatMap (frame 4) ++ rest,
    hrange.receipt, hrange.proofNodes.1, h, ?_⟩
  · rw [hbytes, List.length_append, hhead]
    exact Nat.le_add_right ..
  · rw [hbytes, List.drop_left' hhead]

end WeightProof

/-- The proofs that a proposer attaches to its block, in one command. -/
structure WeightProofSet where
  proofs : List (WeightProof Bytes Bytes)

namespace WeightProofSet

def encode (s : WeightProofSet) : Bytes :=
  weightProofMagic ++ ([weightProofVersion] ++
    (bigEndian 4 s.proofs.length ++ s.proofs.flatMap WeightProof.encode))

def isWeightProofCommand (bytes : Bytes) : Bool :=
  bytes.length ≥ 4 && bytes.take 4 = weightProofMagic

/-- The body of `decode`; a proof takes 128 bytes in memory. -/
def read (memory : ℕ) : Reader WeightProofSet := do
  expect weightProofMagic
  expectByte weightProofVersion
  let proofs ← counted memory 128 (WeightProof.read memory)
  return ⟨proofs⟩

/-- The decoder, where no more than `memory` bytes are granted at once. -/
def decode (memory : ℕ) (bytes : Bytes) : Except Stop WeightProofSet := whole (read memory) bytes

/-- Counts and byte strings that are shorter than `2 ^ 32`. -/
def InRange (s : WeightProofSet) : Prop :=
  s.proofs.length < 2 ^ 32 ∧ ∀ p ∈ s.proofs, p.InRange

/-- The list of proofs is granted, and each one's list of nodes. -/
def Fits (memory : ℕ) (s : WeightProofSet) : Prop :=
  s.proofs.length * 128 ≤ memory ∧ ∀ p ∈ s.proofs, p.Fits memory

/-- The bytes begin a set with a number of proofs for which no memory is granted, or with fewer
proofs than announced and then one with a number of nodes for which none is. -/
def Overdraws (memory : ℕ) (bytes : Bytes) : Prop :=
  ∃ count rest, count < 2 ^ 32 ∧
    bytes = weightProofMagic ++ ([weightProofVersion] ++ (bigEndian 4 count ++ rest)) ∧
    (memory < count * 128 ∨ ∃ (proofs : List (WeightProof Bytes Bytes)) (more : Bytes),
      proofs.length < count ∧ (∀ p ∈ proofs, p.InRange ∧ p.Fits memory) ∧
      rest = proofs.flatMap WeightProof.encode ++ more ∧ WeightProof.Overdraws memory more)

theorem reads_read (memory : ℕ) :
    Reads (encodings (fun s => s.InRange ∧ s.Fits memory) encode) (read memory) := by
  have hbind := (reads_expect weightProofMagic).bind fun _ _ =>
    (reads_expectByte weightProofVersion).bind fun _ _ =>
      (reads_counted memory 128 (WeightProof.reads_read memory) (by norm_num)).bind fun proofs _ =>
        reads_pure (⟨proofs⟩ : WeightProofSet)
  refine hbind.congr fun s bytes => ?_
  simp only [parts, encodings]
  constructor
  · rintro ⟨_, _, _, ⟨-, rfl⟩, ⟨_, _, _, ⟨-, rfl⟩, ⟨proofs, _, _, ⟨⟨hlen, hfits, hall⟩, rfl⟩,
      ⟨rfl, rfl⟩, rfl⟩, rfl⟩, rfl⟩
    exact ⟨⟨⟨hlen, fun p hp => (hall p hp).1⟩, hfits, fun p hp => (hall p hp).2⟩,
      by rw [List.append_nil, encode]⟩
  · rintro ⟨⟨hrange, hfits⟩, rfl⟩
    have hall : ∀ p ∈ s.proofs, p.InRange ∧ p.Fits memory := fun p hp =>
      ⟨hrange.2 p hp, hfits.2 p hp⟩
    exact ⟨(), _, _, ⟨trivial, rfl⟩, ⟨(), _, _, ⟨trivial, rfl⟩, ⟨s.proofs, _, [],
      ⟨⟨hrange.1, hfits.1, hall⟩, rfl⟩, ⟨rfl, rfl⟩, rfl⟩, rfl⟩, by rw [List.append_nil, encode]⟩

theorem aborts_read (memory : ℕ) : Aborts (Overdraws memory) (read memory) := by
  have hproofs := WeightProof.reads_read memory
  have hcounted := aborts_counted memory 128 hproofs (WeightProof.aborts_read memory) (by norm_num)
  have hbind := (frugal_expect weightProofMagic).before (reads_expect weightProofMagic)
    fun _ _ => (frugal_expectByte weightProofVersion).before
      (reads_expectByte weightProofVersion) fun _ _ =>
        hcounted.bind (reads_counted memory 128 hproofs (by norm_num)) fun proofs _ =>
          frugal_pure (⟨proofs⟩ : WeightProofSet)
  refine hbind.congr fun bytes => ?_
  constructor
  · rintro ⟨_, _, _, ⟨-, rfl⟩, rfl, _, _, _, ⟨-, rfl⟩, rfl, hover | ⟨_, _, _, _, _, hfalse⟩⟩
    · obtain ⟨count, rest, hcount, rfl, hlarge⟩ := hover
      exact ⟨count, rest, hcount, rfl, hlarge⟩
    · exact hfalse.elim
  · rintro ⟨count, rest, hcount, rfl, hlarge⟩
    exact ⟨(), _, _, ⟨trivial, rfl⟩, rfl, (), _, _, ⟨trivial, rfl⟩, rfl,
      .inl ⟨count, rest, hcount, rfl, hlarge⟩⟩

theorem decode_iff (memory : ℕ) (bytes : Bytes) (s : WeightProofSet) :
    decode memory bytes = .ok s ↔ (s.InRange ∧ s.Fits memory) ∧ bytes = s.encode :=
  (reads_read memory).whole_iff bytes s

theorem decode_aborts_iff (memory : ℕ) (bytes : Bytes) :
    decode memory bytes = .error .aborted ↔ Overdraws memory bytes :=
  (aborts_read memory).whole_iff bytes

/-- A set of which some list is not granted has an encoding whose numbers show it. -/
theorem overdraws_encode {memory : ℕ} {s : WeightProofSet} (hrange : s.InRange)
    (h : ¬ s.Fits memory) : Overdraws memory s.encode := by
  refine ⟨s.proofs.length, _, hrange.1, rfl, ?_⟩
  by_cases hlen : memory < s.proofs.length * 128
  · exact .inl hlen
  · have hsome : ∃ p, s.proofs.find? (fun p => memory < p.proofNodes.length * 24) = some p := by
      refine Option.isSome_iff_exists.mp (List.find?_isSome.mpr ?_)
      by_contra hnone
      refine h ⟨Nat.not_lt.mp hlen, fun p hp => Nat.not_lt.mp fun hlarge => ?_⟩
      exact hnone ⟨p, hp, decide_eq_true hlarge⟩
    obtain ⟨p, hp⟩ := hsome
    obtain ⟨hlarge, before, later, hsplit, hbefore⟩ := List.find?_eq_some_iff_append.mp hp
    have hmem : p ∈ s.proofs := by
      rw [hsplit]
      exact List.mem_append_right _ (List.mem_cons_self ..)
    have hp := hrange.2 p hmem
    refine .inr ⟨before, (p :: later).flatMap WeightProof.encode, ?_, ?_, ?_, ?_⟩
    · rw [hsplit, List.length_append, List.length_cons]
      omega
    · intro q hq
      have hq' : q ∈ s.proofs := by
        rw [hsplit]
        exact List.mem_append_left _ hq
      have hsmall := hbefore q hq
      rw [Bool.not_eq_true', decide_eq_false_iff_not] at hsmall
      exact ⟨hrange.2 q hq', Nat.not_lt.mp hsmall⟩
    · rw [hsplit, List.flatMap_append]
    · exact WeightProof.overdraws_encode_append hp (of_decide_eq_true hlarge) _

/-- Nothing that a set in range asks for is refused where no request is. -/
theorem InRange.fits {s : WeightProofSet} (h : s.InRange) : s.Fits isizeMax := by
  refine ⟨capacity_le h.1 (by norm_num), fun p hp => ?_⟩
  exact capacity_le (h.2 p hp).proofNodes.1 (by norm_num)

/-- Each set has one encoding, and a byte string neither makes the decoder panic nor abort nor
leave the bytes, exactly when none of the numbers in it asks for memory that is refused. -/
theorem one_encoding_iff (memory : ℕ) (bytes : Bytes) :
    ((∀ s : WeightProofSet, s.InRange → s.encode = bytes → decode memory bytes = .ok s) ∧
        (∀ s, decode memory bytes = .ok s → s.encode = bytes) ∧
        (∀ stop, decode memory bytes = .error stop → stop = .rejected) ∧
        ∀ n c slice c', take n c = .ok (slice, c') →
          c.pos + n ≤ c.buf.length ∧ slice = (c.buf.drop c.pos).take n ∧ c'.buf = c.buf) ↔
      ¬ Overdraws memory bytes := by
  constructor
  · rintro ⟨-, -, hstop, -⟩ hover
    have habort := hstop .aborted ((decode_aborts_iff memory bytes).mpr hover)
    cases habort
  · intro hover
    refine ⟨?_, ?_, ?_, ?_⟩
    · rintro s hrange rfl
      have hfits : s.Fits memory := by
        by_contra hfits
        exact hover (overdraws_encode hrange hfits)
      exact (decode_iff memory _ s).mpr ⟨⟨hrange, hfits⟩, rfl⟩
    · intro s h
      exact ((decode_iff memory bytes s).mp h).2.symm
    · intro stop h
      cases stop with
      | rejected => rfl
      | panicked => exact absurd h ((reads_read memory).whole_safe bytes)
      | aborted => exact absurd ((decode_aborts_iff memory bytes).mp h) hover
    · intro n c slice c' h
      exact take_inside h

end WeightProofSet

namespace Sample

/-- A set of `2 ^ 32 - 1` proofs, of which there is none. -/
def announcedProofs : Bytes := [0x57, 0x50, 0x52, 0x31, 1, 0xff, 0xff, 0xff, 0xff]

/-- Where no more than 256 GiB are granted, nine bytes abort the decoder. -/
theorem announced_proofs_abort :
    WeightProofSet.decode (2 ^ 38) announcedProofs = .error .aborted := rfl

end Sample
end Boule
