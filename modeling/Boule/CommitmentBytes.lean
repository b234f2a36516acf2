import Boule.HistoryCommitment
import Boule.HotStuff.Headers
import Boule.Lib.Framing

/-! The bytes that a history commitment hashes: which histories have the same. -/
namespace Boule

/-- `postcard::to_stdvec` for each of the persisted histories. -/
structure PostcardEncoders where
  set : PersistedValidatorHistory → Bytes
  key : PersistedKeyHistory → Bytes
  bls : PersistedKeyHistory → Bytes
  operator : PersistedKeyHistory → Bytes

/-- Different persisted histories are encoded differently. -/
structure PostcardEncoders.Injective (E : PostcardEncoders) : Prop where
  set : Function.Injective E.set
  key : Function.Injective E.key
  bls : Function.Injective E.bls
  operator : Function.Injective E.operator

def domainV2 : Bytes := "boule.history_commitment.v2".toUTF8.data.toList

/-- The length as a `u64` with the highest byte first, and then the bytes. -/
def feedSection (bytes : Bytes) : Bytes := Framing.frame 8 bytes

/-- What `validator_history_commitment_v2` feeds to the hasher. -/
def commitmentBytesV2 (E : PostcardEncoders) (h : Histories) : Bytes :=
  domainV2 ++ (feedSection (E.set h.set.toPersisted) ++ (feedSection (E.key h.key.toPersisted) ++
    ((match h.bls with
      | some bls => 1 :: feedSection (E.bls bls.toPersisted)
      | none => [0]) ++
      feedSection (E.operator ((h.operator.map OperatorKeyHistory.toPersisted).getD ⟨[]⟩)))))

/-- The primitives whose commitment is the hash of these bytes. -/
def HistoryPrimitives.hashing (R : HistoryPrimitives) (E : PostcardEncoders)
    (sha256 : Bytes → Bytes32) : HistoryPrimitives :=
  { R with
    historyHash := fun set key bls operator =>
      sha256 (domainV2 ++ (feedSection (E.set set) ++ (feedSection (E.key key) ++
        (Framing.optional feedSection (bls.map E.bls) ++ feedSection (E.operator operator))))) }

namespace Histories

/-- The encodings of the four histories. -/
def sections (E : PostcardEncoders) (h : Histories) : Bytes × Bytes × Option Bytes × Bytes :=
  (E.set h.set.toPersisted, E.key h.key.toPersisted,
    h.bls.map fun bls => E.bls bls.toPersisted,
    E.operator ((h.operator.map OperatorKeyHistory.toPersisted).getD ⟨[]⟩))

/-- The encodings have fewer than 2 ^ 64 bytes. -/
structure Fits (E : PostcardEncoders) (h : Histories) : Prop where
  set : (E.set h.set.toPersisted).length < 2 ^ 64
  key : (E.key h.key.toPersisted).length < 2 ^ 64
  bls : ∀ bls ∈ h.bls, (E.bls bls.toPersisted).length < 2 ^ 64
  operator : (E.operator
    ((h.operator.map OperatorKeyHistory.toPersisted).getD ⟨[]⟩)).length < 2 ^ 64

end Histories

/-- The sections of a commitment, one after the other. -/
def feedSections (s : Bytes × Bytes × Option Bytes × Bytes) : Bytes :=
  feedSection s.1 ++ (feedSection s.2.1 ++
    (Framing.optional feedSection s.2.2.1 ++ feedSection s.2.2.2))

theorem readable_feedSection : Framing.Readable (fun bytes => bytes.length < 2 ^ 64) feedSection :=
  Framing.readable_frame 8

theorem readable_feedSections : Framing.Readable
    (fun s : Bytes × Bytes × Option Bytes × Bytes => s.1.length < 2 ^ 64 ∧ s.2.1.length < 2 ^ 64 ∧
      (∀ bytes ∈ s.2.2.1, bytes.length < 2 ^ 64) ∧ s.2.2.2.length < 2 ^ 64) feedSections :=
  readable_feedSection.pair (readable_feedSection.pair
    (readable_feedSection.optional.pair readable_feedSection))

section
variable {E : PostcardEncoders} {h h' : Histories}

theorem commitmentBytesV2_eq (E : PostcardEncoders) (h : Histories) :
    commitmentBytesV2 E h = domainV2 ++ feedSections (h.sections E) := by
  unfold commitmentBytesV2 feedSections Histories.sections
  cases h.bls with
  | none => rfl
  | some bls => rfl

theorem commitment_hashing (R : HistoryPrimitives) (E : PostcardEncoders)
    (sha256 : Bytes → Bytes32) (h : Histories) :
    validatorHistoryCommitmentV2 (R.hashing E sha256) h = sha256 (commitmentBytesV2 E h) := by
  rw [commitmentBytesV2_eq]
  unfold validatorHistoryCommitmentV2 HistoryPrimitives.hashing feedSections Histories.sections
  simp only [Option.map_map]
  rfl

theorem Histories.Fits.sections (hf : h.Fits E) :
    (h.sections E).1.length < 2 ^ 64 ∧ (h.sections E).2.1.length < 2 ^ 64 ∧
      (∀ bytes ∈ (h.sections E).2.2.1, bytes.length < 2 ^ 64) ∧
      (h.sections E).2.2.2.length < 2 ^ 64 := by
  refine ⟨hf.set, hf.key, fun bytes hbytes => ?_, hf.operator⟩
  obtain ⟨bls, hb, rfl⟩ := Option.map_eq_some_iff.mp hbytes
  exact hf.bls bls hb

/-- The bytes tell apart histories that are persisted differently, but for an operator history
that is missing and one that is empty. -/
theorem commitmentBytesV2_eq_iff (hE : E.Injective) (hf : h.Fits E) (hf' : h'.Fits E) :
    commitmentBytesV2 E h = commitmentBytesV2 E h' ↔
      h.set.toPersisted = h'.set.toPersisted ∧ h.key.toPersisted = h'.key.toPersisted ∧
      h.bls.map BlsKeyHistory.toPersisted = h'.bls.map BlsKeyHistory.toPersisted ∧
      (h.operator.map OperatorKeyHistory.toPersisted).getD ⟨[]⟩ =
        (h'.operator.map OperatorKeyHistory.toPersisted).getD ⟨[]⟩ := by
  have hmap : ∀ h : Histories, (h.sections E).2.2.1 =
      (h.bls.map BlsKeyHistory.toPersisted).map E.bls := by
    intro h
    rw [Option.map_map]
    rfl
  rw [commitmentBytesV2_eq, commitmentBytesV2_eq]
  constructor
  · intro he
    have hsections := readable_feedSections.eq_of_eq hf.sections hf'.sections
      (List.append_cancel_left he)
    obtain ⟨hset, hrest⟩ := Prod.mk.inj hsections
    obtain ⟨hkey, hrest⟩ := Prod.mk.inj hrest
    obtain ⟨hbls, hoperator⟩ := Prod.mk.inj hrest
    have hencoded := (hmap h).symm.trans (hbls.trans (hmap h'))
    exact ⟨hE.set hset, hE.key hkey, Option.map_injective hE.bls hencoded, hE.operator hoperator⟩
  · rintro ⟨hset, hkey, hbls, hoperator⟩
    have hsame : (h.sections E).2.2.1 = (h'.sections E).2.2.1 := by
      rw [hmap, hmap, hbls]
    have hsections : h.sections E = h'.sections E :=
      Prod.ext (congrArg E.set hset) (Prod.ext (congrArg E.key hkey)
        (Prod.ext hsame (congrArg E.operator hoperator)))
    rw [hsections]

end

/-! ### The postcard format

Ids and keys are numbers here, so they are encoded as numbers. -/

namespace Postcard

def boundary (b : PersistedBoundary) : Bytes :=
  Leb128.encode b.vEff ++ (Framing.list Leb128.encode b.members ++
    Framing.list (fun w : UInt64 => Leb128.encode w.toNat) b.weights)

def validatorHistory (p : PersistedValidatorHistory) : Bytes :=
  Framing.list boundary p.boundaries

def entry (e : KeyEntry) : Bytes := Leb128.encode e.vEff ++ Leb128.encode e.key

def validator (v : PersistedValidator) : Bytes :=
  Leb128.encode v.stableId ++ Framing.list entry v.entries

def keyHistory (p : PersistedKeyHistory) : Bytes := Framing.list validator p.validators

def encoders : PostcardEncoders := ⟨validatorHistory, keyHistory, keyHistory, keyHistory⟩

theorem readable_boundary : Framing.Readable (fun _ => True) boundary := by
  have hweights := Framing.readable_encode.comp
    (e := fun w : UInt64 => w.toNat) fun _ _ h => UInt64.toNat_inj.mp h
  have hpair := Framing.readable_encode.pair (Framing.readable_encode.list.pair hweights.list)
  have hfields := hpair.comp (e := fun b : PersistedBoundary => (b.vEff, b.members, b.weights))
    fun a b h => by
      obtain ⟨hv, hrest⟩ := Prod.mk.inj h
      obtain ⟨hm, hw⟩ := Prod.mk.inj hrest
      cases a
      cases b
      simp_all
  exact hfields.mono fun b _ => ⟨trivial, fun _ _ => trivial, fun _ _ => trivial⟩

theorem readable_entry : Framing.Readable (fun _ => True) entry := by
  have hpair := Framing.readable_encode.pair Framing.readable_encode
  have hfields := hpair.comp (e := fun e : KeyEntry => (e.vEff, e.key)) fun a b h => by
    cases a
    cases b
    simp_all
  exact hfields.mono fun e _ => ⟨trivial, trivial⟩

theorem readable_validator : Framing.Readable (fun _ => True) validator := by
  have hpair := Framing.readable_encode.pair readable_entry.list
  have hfields := hpair.comp (e := fun v : PersistedValidator => (v.stableId, v.entries))
    fun a b h => by
      cases a
      cases b
      simp_all
  exact hfields.mono fun v _ => ⟨trivial, fun _ _ => trivial⟩

theorem injective_encoders : encoders.Injective := by
  have hset : Function.Injective validatorHistory := by
    intro p p' h
    have hb := readable_boundary.list.eq_of_eq (fun _ _ => trivial) (fun _ _ => trivial) h
    cases p
    cases p'
    simp_all
  have hkeys : Function.Injective keyHistory := by
    intro p p' h
    have hv := readable_validator.list.eq_of_eq (fun _ _ => trivial) (fun _ _ => trivial) h
    cases p
    cases p'
    simp_all
  exact ⟨hset, hkeys, hkeys, hkeys⟩

end Postcard

namespace Sample
open Postcard

/-- The genesis histories of four validators without BLS keys. -/
def atGenesis (operator : Option OperatorKeyHistory) : Histories where
  set := .fromGenesis validators
  key := .new validators.members
  bls := none
  operator := operator

theorem fits_atGenesis (operator : Option OperatorKeyHistory)
    (h : (keyHistory
      ((operator.map OperatorKeyHistory.toPersisted).getD ⟨[]⟩)).length < 2 ^ 64) :
    (atGenesis operator).Fits encoders where
  set := by
    have hset : (ValidatorSetHistory.fromGenesis validators).toPersisted =
        ⟨[⟨0, [1, 2, 3, 4], [1, 1, 1, 1]⟩]⟩ := by decide +kernel
    show (validatorHistory (ValidatorSetHistory.fromGenesis validators).toPersisted).length < _
    rw [hset]
    simp [validatorHistory, boundary, Framing.list, Leb128.encode_of_lt]
  key := by
    have hkey : (ValidatorKeyHistory.new validators.members).toPersisted =
        ⟨[⟨1, [⟨0, 1⟩]⟩, ⟨2, [⟨0, 2⟩]⟩, ⟨3, [⟨0, 3⟩]⟩, ⟨4, [⟨0, 4⟩]⟩]⟩ := by decide +kernel
    show (keyHistory (ValidatorKeyHistory.new validators.members).toPersisted).length < _
    rw [hkey]
    simp [keyHistory, validator, entry, Framing.list, Leb128.encode_of_lt]
  bls := nofun
  operator := h

/-- An operator key shows in the bytes. -/
theorem operator_shows : commitmentBytesV2 encoders (atGenesis none) ≠
    commitmentBytesV2 encoders (atGenesis (some (.withGenesis [(1, 9)]))) := by
  have hnone : (keyHistory ⟨[]⟩).length < 2 ^ 64 := by
    simp [keyHistory, Framing.list, Leb128.encode_of_lt]
  have hop : (OperatorKeyHistory.withGenesis [(1, 9)]).toPersisted = ⟨[⟨1, [⟨0, 9⟩]⟩]⟩ := by
    decide +kernel
  have hsome : (keyHistory (OperatorKeyHistory.withGenesis [(1, 9)]).toPersisted).length <
      2 ^ 64 := by
    rw [hop]
    simp [keyHistory, validator, entry, Framing.list, Leb128.encode_of_lt]
  intro hsame
  obtain ⟨-, -, -, hoperator⟩ := (commitmentBytesV2_eq_iff injective_encoders
    (fits_atGenesis none hnone) (fits_atGenesis (some _) hsome)).mp hsame
  cases hoperator.trans hop

/-- Whether there is an operator history does not show in the bytes. -/
theorem presence_hidden : encoders.Injective ∧
    commitmentBytesV2 encoders (atGenesis none) =
      commitmentBytesV2 encoders (atGenesis (some (.withGenesis []))) ∧
    (atGenesis none).operator.map OperatorKeyHistory.toPersisted ≠
      (atGenesis (some (.withGenesis []))).operator.map OperatorKeyHistory.toPersisted :=
  ⟨injective_encoders, rfl, nofun⟩

end Sample

end Boule
