import Boule.Dispatch.Ingress
import Boule.HotStuff.Equivocations
import Boule.Lib.Run

/-! From a detected equivocation to the evidence in the mempool. -/
namespace Boule

/-! ### The mempool -/

/-- The encoding of a proof as a command, and the digest under which the mempool knows it. -/
structure EvidencePrimitives where
  encodeEvidence : EquivocationProof → Bytes
  digest : Bytes → ℕ

structure InMemoryMempool where
  maxSize : ℕ
  order : List Bytes
  seen : Finset ℕ
  deriving DecidableEq

namespace InMemoryMempool

/-- `none` for a mempool that is full. -/
def insert (E : EvidencePrimitives) (m : InMemoryMempool) (cmd : Bytes) :
    InMemoryMempool × Option Bool :=
  if E.digest cmd ∈ m.seen then (m, some false)
  else if m.maxSize ≤ m.order.length then (m, none)
  else
    ({ m with order := m.order ++ [cmd], seen := Insert.insert (E.digest cmd) m.seen }, some true)

theorem mem_seen_insert {E : EvidencePrimitives} {m : InMemoryMempool} (cmd : Bytes)
    (h : m.order.length < m.maxSize) :
    E.digest cmd ∈ (m.insert E cmd).1.seen ∧ (m.insert E cmd).2.isSome = true := by
  unfold insert
  split_ifs with hseen hfull
  · exact ⟨hseen, rfl⟩
  · omega
  · exact ⟨Finset.mem_insert_self _ _, rfl⟩

end InMemoryMempool

/-! ### The messages that are retained -/

/-- View, signer and block of a vote or a proposal. -/
abbrev MessageKey := ℕ × ValidatorId × BlockHash

def evidenceRetentionViews : ℕ := 256

def evidenceMapCap : ℕ := 4096

def insertCapped {V : Type} (map : Table MessageKey V) (key : MessageKey) (value : V) :
    Table MessageKey V :=
  if evidenceMapCap ≤ map.size ∧ map.containsKey key = false then map else map.insert key value

section
variable {V : Type} {map : Table MessageKey V} {k k' : MessageKey} {v v' : V}

theorem of_get?_insertCapped (h : (insertCapped map k v).get? k' = some v') :
    k' = k ∧ v' = v ∨ map.get? k' = some v' := by
  unfold insertCapped at h
  split_ifs at h
  · exact .inr h
  · rw [Table.get?_insert] at h
    split_ifs at h with he
    · exact .inl ⟨he, (Option.some.inj h).symm⟩
    · exact .inr h

theorem containsKey_insertCapped_of (k : MessageKey) (v : V) (h : map.containsKey k' = true) :
    (insertCapped map k v).containsKey k' = true := by
  obtain ⟨v', hv'⟩ := (Table.containsKey_iff _ _).mp h
  unfold insertCapped
  split_ifs
  · exact h
  · apply (Table.containsKey_iff _ _).mpr
    rw [Table.get?_insert]
    split_ifs
    · exact ⟨v, rfl⟩
    · exact ⟨v', hv'⟩

/-- A message for which there is room is there afterwards. -/
theorem containsKey_insertCapped_self (v : V)
    (h : map.size < evidenceMapCap ∨ map.containsKey k = true) :
    (insertCapped map k v).containsKey k = true := by
  have hroom : ¬ (evidenceMapCap ≤ map.size ∧ map.containsKey k = false) := by
    rintro ⟨hfull, hnone⟩
    rcases h with hlt | hsome
    · omega
    · rw [hsome] at hnone
      cases hnone
  rw [insertCapped, if_neg hroom]
  exact (Table.containsKey_iff _ _).mpr ⟨v, Table.get?_insert_self _ _ _⟩

theorem insertCapped_of_full (h : evidenceMapCap ≤ map.size) (hk : map.containsKey k = false) :
    insertCapped map k v = map := if_pos ⟨h, hk⟩

theorem size_insertCapped (h : map.size < evidenceMapCap) (hk : map.containsKey k = false) :
    (insertCapped map k v).size = map.size + 1 := by
  have hnew : k ∉ map := AList.lookup_eq_none.mp ((Table.containsKey_eq_false_iff _ _).mp hk)
  rw [insertCapped, if_neg fun hfull => absurd h (not_lt.mpr hfull.1)]
  change (AList.insert k v map).entries.length = map.entries.length + 1
  rw [AList.entries_insert_of_notMem hnew]
  rfl

end

/-- What a node has for reporting equivocations. -/
structure Informer where
  core : HotStuffCore
  validatorHistory : ValidatorSetHistory
  validatorKeyHistory : ValidatorKeyHistory
  seenVotes : Table MessageKey (Signed Vote)
  seenProposals : Table MessageKey (Signed Proposal)
  evidenceMinted : Finset ValidatorId
  committedEvidence : Table ValidatorId ℕ
  mempool : InMemoryMempool

/-- Besides the events: histories that a commit changes, evidence from a peer, evidence in a
committed block, and whatever else happens to the mempool. -/
inductive InformerInput where
  | event (order : IterOrder) (event : Event)
  | histories (validatorHistory : ValidatorSetHistory) (keyHistory : ValidatorKeyHistory)
  | evidence (proof : EquivocationProof) (validatorId : ValidatorId)
  | committed (who : ValidatorId) (view : ℕ)
  | mempool (mempool : InMemoryMempool)

namespace Informer

def start (core : HotStuffCore) (keyHistory : ValidatorKeyHistory)
    (committedEvidence : Table ValidatorId ℕ) (mempool : InMemoryMempool) : Informer where
  core := core
  validatorHistory := core.state.validatorHistory
  validatorKeyHistory := keyHistory
  seenVotes := ∅
  seenProposals := ∅
  evidenceMinted := ∅
  committedEvidence := committedEvidence
  mempool := mempool

section
variable (P : Primitives) (V : Verifier) (E : EvidencePrimitives) (chainId : ChainId)

def retainForEquivocationEvidence (s : Informer) : Event → Informer
  | .voteReceived variant =>
    let signed := variant.signed.value
    { s with
      seenVotes := insertCapped s.seenVotes
        (signed.payload.view, variant.signed.signerValidatorId, signed.payload.blockHash) signed }
  | .proposalReceived verified =>
    let signed := verified.value
    { s with
      seenProposals := insertCapped s.seenProposals
        (signed.payload.block.header.view, verified.signerValidatorId, signed.payload.block.hash P)
        signed }
  | _ => s

def gcEquivocationEvidence (s : Informer) (current : ℕ) : Informer :=
  let floor := current - evidenceRetentionViews
  { s with
    seenVotes := s.seenVotes.retain fun k _ => floor ≤ k.1
    seenProposals := s.seenProposals.retain fun k _ => floor ≤ k.1 }

def mintEquivocationEvidence (s : Informer) (proof : EquivocationProof) (who : ValidatorId) :
    Informer × Bool :=
  if who ∈ s.evidenceMinted ∨ s.committedEvidence.containsKey who then (s, false)
  else
    match s.mempool.insert E (E.encodeEvidence proof) with
    | (mempool, some _) =>
      ({ s with mempool := mempool, evidenceMinted := insert who s.evidenceMinted }, true)
    | (mempool, none) => ({ s with mempool := mempool }, false)

def recordEquivocationProof (s : Informer) (proof : EquivocationProof) (who : ValidatorId) :
    Informer × Option EquivocationProof :=
  match verifyEquivocationProof V P proof s.validatorHistory s.validatorKeyHistory chainId with
  | .error _ => (s, none)
  | .ok id =>
    if id = who then
      let (s, minted) := s.mintEquivocationEvidence E proof who
      (s, if minted then some proof else none)
    else (s, none)

def buildVoteEquivocationProof (s : Informer) (voter : ValidatorId) (view : ℕ)
    (blockA blockB : BlockHash) : Informer × Option EquivocationProof :=
  match s.seenVotes.get? (view, voter, blockA), s.seenVotes.get? (view, voter, blockB) with
  | some a, some b => s.recordEquivocationProof P V E chainId (.doubleVote a b) voter
  | _, _ => (s, none)

def buildProposalEquivocationProof (s : Informer) (leader : ValidatorId) (view : ℕ)
    (blockA blockB : BlockHash) : Informer × Option EquivocationProof :=
  match s.seenProposals.get? (view, leader, blockA),
      s.seenProposals.get? (view, leader, blockB) with
  | some a, some b => s.recordEquivocationProof P V E chainId (.doubleProposal a b) leader
  | _, _ => (s, none)

def stepSafety (s : Informer) (order : IterOrder) (event : Event) : Informer × List Action :=
  let s := s.retainForEquivocationEvidence P event
  let s :=
    match event with
    | .pacemakerAdvance current => s.gcEquivocationEvidence current
    | _ => s
  let (core, actions) := s.core.step P order event
  ({ s with core := core }, actions)

/-- The arms of `apply_safety_actions` for the two kinds of evidence. -/
def applySafetyAction (s : Informer) : Action → Informer
  | .equivocationEvidence voter view blockA blockB =>
    (s.buildVoteEquivocationProof P V E chainId voter view blockA blockB).1
  | .proposalEquivocationEvidence leader view blockA blockB =>
    (s.buildProposalEquivocationProof P V E chainId leader view blockA blockB).1
  | _ => s

def step (s : Informer) : InformerInput → Informer
  | .event order event =>
    let (s, actions) := s.stepSafety P order event
    actions.foldl (applySafetyAction P V E chainId) s
  | .histories validatorHistory keyHistory =>
    { s with
      core := { s.core with
        state := { s.core.state with validatorHistory := validatorHistory } }
      validatorHistory := validatorHistory
      validatorKeyHistory := keyHistory }
  | .evidence proof validatorId => (s.mintEquivocationEvidence E proof validatorId).1
  | .committed who view => { s with committedEvidence := s.committedEvidence.insert who view }
  | .mempool mempool => { s with mempool := mempool }

end
end Informer

/-! ### What is retained of one kind of message -/

/-- Another message of its signer, in its view but for another block, is among the keys. -/
def Contested (keys : List MessageKey) (k : MessageKey) : Prop :=
  ∃ k' ∈ keys, k'.1 = k.1 ∧ k'.2.1 = k.2.1 ∧ k'.2.2 ≠ k.2.2

instance (keys : List MessageKey) : DecidablePred (Contested keys) := fun k =>
  inferInstanceAs (Decidable (∃ k' ∈ keys, k'.1 = k.1 ∧ k'.2.1 = k.2.1 ∧ k'.2.2 ≠ k.2.2))

/-- A message as ingress lets it in. -/
structure Verifies {α : Type} (V : Verifier) (chainId : ChainId) (wrap : α → SignedPayload)
    (history : ValidatorSetHistory) (keyHistory : ValidatorKeyHistory) (k : MessageKey)
    (signed : Signed α) : Prop where
  sig : verifySig V wrap signed chainId = .ok ()
  signer : verifySignerAt signed.signer k.1 history keyHistory = .ok k.2.1

/-- What the dedupe table notes has come in, and the messages it can be held against are retained
under their keys, as ingress let them in. -/
structure Attested {α : Type} (V : Verifier) (chainId : ChainId) (wrap : α → SignedPayload)
    (about : α → ℕ × BlockHash) (keys : List MessageKey) (history : ValidatorSetHistory)
    (keyHistory : ValidatorKeyHistory) (dedupe : Table (ℕ × ValidatorId) BlockHash)
    (seen : Table MessageKey (Signed α)) : Prop where
  noted : ∀ view id h, dedupe.get? (view, id) = some h →
    (view, id, h) ∈ keys ∧ (Contested keys (view, id, h) → seen.containsKey (view, id, h) = true)
  about : ∀ k m, seen.get? k = some m → about m.payload = (k.1, k.2.2)
  verifies : ∀ k m, seen.get? k = some m → Contested keys k →
    Verifies V chainId wrap history keyHistory k m

section
variable {α : Type} {V : Verifier} {chainId : ChainId} {wrap : α → SignedPayload}
  {about : α → ℕ × BlockHash} {keys : List MessageKey} {history history' : ValidatorSetHistory}
  {keyHistory keyHistory' : ValidatorKeyHistory}
  {dedupe dedupe' : Table (ℕ × ValidatorId) BlockHash} {seen : Table MessageKey (Signed α)}

/-- A message comes in, is noted and is retained, if there is room where it matters. -/
theorem Attested.receive (h : Attested V chainId wrap about keys history keyHistory dedupe seen)
    {k : MessageKey} {m : Signed α} (hk : k ∈ keys) (habout : about m.payload = (k.1, k.2.2))
    (hverifies : Verifies V chainId wrap history keyHistory k m)
    (hroom : Contested keys k → seen.size < evidenceMapCap ∨ seen.containsKey k = true)
    (hdedupe : ∀ view id h, dedupe'.get? (view, id) = some h →
      (view, id, h) = k ∨ dedupe.get? (view, id) = some h) :
    Attested V chainId wrap about keys history keyHistory dedupe' (insertCapped seen k m) := by
  refine ⟨?_, ?_, ?_⟩
  · intro view id h' hd
    rcases hdedupe view id h' hd with he | hbefore
    · rw [he]
      exact ⟨hk, fun hc => containsKey_insertCapped_self m (hroom hc)⟩
    · obtain ⟨hmem, hseen⟩ := h.noted view id h' hbefore
      exact ⟨hmem, fun hc => containsKey_insertCapped_of k m (hseen hc)⟩
  · intro k' m' hk'
    rcases of_get?_insertCapped hk' with ⟨rfl, rfl⟩ | hbefore
    · exact habout
    · exact h.about k' m' hbefore
  · intro k' m' hk' hc
    rcases of_get?_insertCapped hk' with ⟨rfl, rfl⟩ | hbefore
    · exact hverifies
    · exact h.verifies k' m' hbefore hc

/-- Entering a view drops what the core no longer notes. -/
theorem Attested.collect (h : Attested V chainId wrap about keys history keyHistory dedupe seen)
    {current : ℕ} (hdedupe : ∀ view id h, dedupe'.get? (view, id) = some h →
      dedupe.get? (view, id) = some h ∧ current ≤ view) :
    Attested V chainId wrap about keys history keyHistory dedupe'
      (seen.retain fun k _ => current - evidenceRetentionViews ≤ k.1) := by
  refine ⟨?_, ?_, ?_⟩
  · intro view id h' hd
    obtain ⟨hbefore, hle⟩ := hdedupe view id h' hd
    obtain ⟨hmem, hseen⟩ := h.noted view id h' hbefore
    refine ⟨hmem, fun hc => ?_⟩
    have hold : decide (current - evidenceRetentionViews ≤ view) = true :=
      decide_eq_true ((Nat.sub_le _ _).trans hle)
    rw [Table.containsKey, Table.get?_retain_key, if_pos hold]
    exact hseen hc
  · exact fun k m hk => h.about k m (Table.get?_of_retain hk)
  · exact fun k m hk => h.verifies k m (Table.get?_of_retain hk)

theorem Attested.of_dedupe (h : Attested V chainId wrap about keys history keyHistory dedupe seen)
    (hdedupe : ∀ view id h, dedupe'.get? (view, id) = some h → dedupe.get? (view, id) = some h) :
    Attested V chainId wrap about keys history keyHistory dedupe' seen :=
  ⟨fun view id h' hd => h.noted view id h' (hdedupe view id h' hd), h.about, h.verifies⟩

/-- Histories under which what is held against a signer is still signed by it. -/
theorem Attested.rehistory (h : Attested V chainId wrap about keys history keyHistory dedupe seen)
    (hsigner : ∀ k m, seen.get? k = some m → Contested keys k →
      verifySignerAt m.signer k.1 history' keyHistory' = .ok k.2.1) :
    Attested V chainId wrap about keys history' keyHistory' dedupe seen :=
  ⟨h.noted, h.about, fun k m hk hc => ⟨(h.verifies k m hk hc).sig, hsigner k m hk hc⟩⟩

/-- A message for another block than the one that is noted is retained together with the message
that was. -/
theorem Attested.both_retained
    (h : Attested V chainId wrap about keys history keyHistory dedupe seen) {view : ℕ}
    {id : ValidatorId} {blockA blockB : BlockHash} (hget : dedupe.get? (view, id) = some blockA)
    (hnow : (view, id, blockB) ∈ keys) (hne : blockA ≠ blockB)
    (hroom : Contested keys (view, id, blockB) →
      seen.size < evidenceMapCap ∨ seen.containsKey (view, id, blockB) = true) (m : Signed α) :
    (view, id, blockA) ∈ keys ∧
      ∃ a b, (insertCapped seen (view, id, blockB) m).get? (view, id, blockA) = some a ∧
        (insertCapped seen (view, id, blockB) m).get? (view, id, blockB) = some b := by
  obtain ⟨hbefore, hseen⟩ := h.noted view id blockA hget
  have holdest := containsKey_insertCapped_of (view, id, blockB) m
    (hseen ⟨_, hnow, rfl, rfl, hne.symm⟩)
  have hnewest := containsKey_insertCapped_self m (hroom ⟨_, hbefore, rfl, rfl, hne⟩)
  obtain ⟨a, ha⟩ := (Table.containsKey_iff _ _).mp holdest
  obtain ⟨b, hb⟩ := (Table.containsKey_iff _ _).mp hnewest
  exact ⟨hbefore, a, b, ha, hb⟩

/-- Two retained messages of a signer for different blocks make a proof. -/
theorem Attested.proof (h : Attested V chainId wrap about keys history keyHistory dedupe seen)
    {view : ℕ} {id : ValidatorId} {blockA blockB : BlockHash} (hne : blockA ≠ blockB)
    (hnoted : (view, id, blockA) ∈ keys) (hnow : (view, id, blockB) ∈ keys) {a b : Signed α}
    (ha : seen.get? (view, id, blockA) = some a) (hb : seen.get? (view, id, blockB) = some b) :
    verifyConflictingPair V wrap a b (about a.payload).1 (about b.payload).1 (about a.payload).2
      (about b.payload).2 history keyHistory chainId = .ok id := by
  obtain ⟨hsigA, hsignerA⟩ := h.verifies _ a ha ⟨_, hnow, rfl, rfl, hne.symm⟩
  obtain ⟨hsigB, hsignerB⟩ := h.verifies _ b hb ⟨_, hnoted, rfl, rfl, hne⟩
  rw [h.about _ a ha, h.about _ b hb]
  refine bind_eq_ok.mpr ⟨(), if_pos (decide_eq_true rfl), ?_⟩
  refine bind_eq_ok.mpr ⟨(), if_pos (decide_eq_true hne), ?_⟩
  refine bind_eq_ok.mpr ⟨(), by rw [hsigA]; rfl, ?_⟩
  refine bind_eq_ok.mpr ⟨(), by rw [hsigB]; rfl, ?_⟩
  refine bind_eq_ok.mpr ⟨id, by rw [hsignerA]; rfl, ?_⟩
  refine bind_eq_ok.mpr ⟨id, by rw [hsignerB]; rfl, ?_⟩
  exact bind_eq_ok.mpr ⟨(), if_pos (decide_eq_true rfl), rfl⟩

end

/-! ### Runs -/

def InformerInput.safetyEvent? : InformerInput → Option Event
  | .event _ e => some e
  | _ => none

def voteKeys (inputs : List InformerInput) : List MessageKey :=
  inputs.filterMap fun input => input.safetyEvent?.bind Event.voteKey?

def proposalKeys (P : Primitives) (inputs : List InformerInput) : List MessageKey :=
  inputs.filterMap fun input => input.safetyEvent?.bind (Event.proposalKey? P)

def aboutVote (vote : Vote) : ℕ × BlockHash := (vote.view, vote.blockHash)

def aboutProposal (P : Primitives) (proposal : Proposal) : ℕ × BlockHash :=
  (proposal.block.header.view, proposal.block.hash P)

namespace Informer

/-- Votes and proposals that come in have passed ingress. -/
def Admitted (P : Primitives) (V : Verifier) (chainId : ChainId) (s : Informer) :
    InformerInput → Prop
  | .event _ (.voteReceived variant) => Verifies V chainId .vote s.validatorHistory
    s.validatorKeyHistory (variant.signed.value.payload.view, variant.signed.signerValidatorId,
      variant.signed.value.payload.blockHash) variant.signed.value
  | .event _ (.proposalReceived verified) => Verifies V chainId .proposal s.validatorHistory
    s.validatorKeyHistory (verified.value.payload.block.header.view, verified.signerValidatorId,
      verified.value.payload.block.hash P) verified.value
  | _ => True

/-- A message for which the run has another one of its signer finds room or is there already, and
new histories leave such messages, as far as they are retained, with their signers. -/
def KeepsEvidence (P : Primitives) (all : List InformerInput) (s : Informer) :
    InformerInput → Prop
  | .event _ event =>
    (∀ k ∈ event.voteKey?, Contested (voteKeys all) k →
      s.seenVotes.size < evidenceMapCap ∨ s.seenVotes.containsKey k = true) ∧
    ∀ k ∈ event.proposalKey? P, Contested (proposalKeys P all) k →
      s.seenProposals.size < evidenceMapCap ∨ s.seenProposals.containsKey k = true
  | .histories history keyHistory =>
    (∀ k m, s.seenVotes.get? k = some m → Contested (voteKeys all) k →
      verifySignerAt m.signer k.1 history keyHistory = .ok k.2.1) ∧
    ∀ k m, s.seenProposals.get? k = some m → Contested (proposalKeys P all) k →
      verifySignerAt m.signer k.1 history keyHistory = .ok k.2.1
  | _ => True

/-- Both messages are retained and make a proof, and the command with the proof is in the mempool,
unless there is evidence against the validator already or the mempool is full. -/
def Reports {α : Type} (P : Primitives) (V : Verifier) (E : EvidencePrimitives) (chainId : ChainId)
    (s s' : Informer) (seen : Table MessageKey (Signed α))
    (proof : Signed α → Signed α → EquivocationProof) (who : ValidatorId) (view : ℕ)
    (blockA blockB : BlockHash) : Prop :=
  ∃ a b, seen.get? (view, who, blockA) = some a ∧ seen.get? (view, who, blockB) = some b ∧
    verifyEquivocationProof V P (proof a b) s.validatorHistory s.validatorKeyHistory chainId =
      .ok who ∧
    (who ∈ s.evidenceMinted ∨ s.committedEvidence.containsKey who = true ∨
      s.mempool.maxSize ≤ s.mempool.order.length ∨
      E.digest (E.encodeEvidence (proof a b)) ∈ s'.mempool.seen ∧ who ∈ s'.evidenceMinted)

/-- Whatever the core reports in the step becomes evidence. -/
def Evidenced (P : Primitives) (V : Verifier) (E : EvidencePrimitives) (chainId : ChainId)
    (s : Informer) : InformerInput → Prop
  | .event order event =>
    (∀ voter view blockA blockB,
      .equivocationEvidence voter view blockA blockB ∈ (s.stepSafety P order event).2 →
      Reports P V E chainId (s.stepSafety P order event).1
        (s.step P V E chainId (.event order event))
        (s.stepSafety P order event).1.seenVotes .doubleVote voter view blockA blockB) ∧
    ∀ leader view blockA blockB,
      .proposalEquivocationEvidence leader view blockA blockB ∈ (s.stepSafety P order event).2 →
      Reports P V E chainId (s.stepSafety P order event).1
        (s.step P V E chainId (.event order event))
        (s.stepSafety P order event).1.seenProposals .doubleProposal leader view blockA blockB
  | _ => True

/-- What a run keeps: both tables are attested. -/
structure Informed (P : Primitives) (V : Verifier) (chainId : ChainId)
    (all : List InformerInput) (s : Informer) : Prop where
  votes : Attested V chainId .vote aboutVote (voteKeys all) s.validatorHistory
    s.validatorKeyHistory s.core.voteDedupe s.seenVotes
  proposals : Attested V chainId .proposal (aboutProposal P) (proposalKeys P all)
    s.validatorHistory s.validatorKeyHistory s.core.proposalDedupe s.seenProposals

section
variable {P : Primitives} {V : Verifier} {E : EvidencePrimitives} {chainId : ChainId}
  {all : List InformerInput} {s : Informer}

theorem mem_voteKeys {order : IterOrder} {event : Event} {k : MessageKey}
    (hall : .event order event ∈ all) (hk : event.voteKey? = some k) : k ∈ voteKeys all :=
  List.mem_filterMap.mpr ⟨_, hall, hk⟩

theorem mem_proposalKeys {order : IterOrder} {event : Event} {k : MessageKey}
    (hall : .event order event ∈ all) (hk : event.proposalKey? P = some k) :
    k ∈ proposalKeys P all :=
  List.mem_filterMap.mpr ⟨_, hall, hk⟩

/-- What comes in is retained before the core gets to see it. -/
theorem informed_stepSafety {order : IterOrder} {event : Event} (h : s.Informed P V chainId all)
    (hall : .event order event ∈ all) (hin : s.Admitted P V chainId (.event order event))
    (hkeeps : s.KeepsEvidence P all (.event order event)) :
    (s.stepSafety P order event).1.Informed P V chainId all := by
  have hvotes := HotStuffCore.voteDedupe_step P s.core order event
  have hproposals := HotStuffCore.proposalDedupe_step P s.core order event
  cases event with
  | voteReceived variant =>
    refine ⟨h.votes.receive (mem_voteKeys hall rfl) rfl hin (hkeeps.1 _ rfl) ?_,
      h.proposals.of_dedupe ?_⟩
    · intro view id h' hget
      exact (hvotes view id hget).imp (fun he => (Option.some.inj he).symm) (·.1)
    · intro view id h' hget
      rcases hproposals view id hget with he | hbefore
      · cases he
      · exact hbefore.1
  | proposalReceived verified =>
    refine ⟨h.votes.of_dedupe ?_,
      h.proposals.receive (mem_proposalKeys hall rfl) rfl hin (hkeeps.2 _ rfl) ?_⟩
    · intro view id h' hget
      rcases hvotes view id hget with he | hbefore
      · cases he
      · exact hbefore.1
    · intro view id h' hget
      exact (hproposals view id hget).imp (fun he => (Option.some.inj he).symm) (·.1)
  | newViewReceived verified =>
    refine ⟨h.votes.of_dedupe ?_, h.proposals.of_dedupe ?_⟩
    · intro view id h' hget
      rcases hvotes view id hget with he | hbefore
      · cases he
      · exact hbefore.1
    · intro view id h' hget
      rcases hproposals view id hget with he | hbefore
      · cases he
      · exact hbefore.1
  | pacemakerAdvance current =>
    refine ⟨h.votes.collect ?_, h.proposals.collect ?_⟩
    · intro view id h' hget
      rcases hvotes view id hget with he | hbefore
      · cases he
      · exact ⟨hbefore.1, hbefore.2 current rfl⟩
    · intro view id h' hget
      rcases hproposals view id hget with he | hbefore
      · cases he
      · exact ⟨hbefore.1, hbefore.2 current rfl⟩

/-- Only reports of equivocations change anything here. -/
theorem foldl_applySafetyAction (l : List Action) (s : Informer) :
    l.foldl (applySafetyAction P V E chainId) s =
      (l.filter Action.isEvidence).foldl (applySafetyAction P V E chainId) s := by
  induction l generalizing s with
  | nil => rfl
  | cons a l ih =>
    rw [List.foldl_cons, ih]
    cases ha : a.isEvidence with
    | true => rw [List.filter_cons_of_pos ha, List.foldl_cons]
    | false =>
      have hsame : applySafetyAction P V E chainId s a = s := by
        cases a <;> first | rfl | cases ha
      rw [hsame, List.filter_cons_of_neg (by rw [ha]; exact Bool.false_ne_true)]

theorem stepSafety_core (s : Informer) (order : IterOrder) (event : Event) :
    (s.stepSafety P order event).1.core = (s.core.step P order event).1 := by
  cases event <;> rfl

theorem stepSafety_actions (s : Informer) (order : IterOrder) (event : Event) :
    (s.stepSafety P order event).2 = (s.core.step P order event).2 := by
  cases event <;> rfl

theorem step_event (s : Informer) (order : IterOrder) (event : Event) :
    s.step P V E chainId (.event order event) =
      (s.core.remarks P event).foldl (applySafetyAction P V E chainId)
        (s.stepSafety P order event).1 := by
  have hstep : s.step P V E chainId (.event order event) =
      (s.stepSafety P order event).2.foldl (applySafetyAction P V E chainId)
        (s.stepSafety P order event).1 := rfl
  rw [hstep, foldl_applySafetyAction, stepSafety_actions, HotStuffCore.filter_isEvidence_step]

/-- What evidence leaves alone. -/
structure SameMessages (s s' : Informer) : Prop where
  core : s'.core = s.core
  validatorHistory : s'.validatorHistory = s.validatorHistory
  validatorKeyHistory : s'.validatorKeyHistory = s.validatorKeyHistory
  seenVotes : s'.seenVotes = s.seenVotes
  seenProposals : s'.seenProposals = s.seenProposals

theorem SameMessages.refl (s : Informer) : s.SameMessages s := ⟨rfl, rfl, rfl, rfl, rfl⟩

theorem SameMessages.informed {s' : Informer} (hsame : s.SameMessages s')
    (h : s.Informed P V chainId all) : s'.Informed P V chainId all := by
  obtain ⟨hcore, hhistory, hkeys, hvotes, hproposals⟩ := hsame
  constructor
  · rw [hcore, hhistory, hkeys, hvotes]
    exact h.votes
  · rw [hcore, hhistory, hkeys, hproposals]
    exact h.proposals

theorem sameMessages_mint (s : Informer) (proof : EquivocationProof) (who : ValidatorId) :
    s.SameMessages (s.mintEquivocationEvidence E proof who).1 := by
  unfold mintEquivocationEvidence
  split_ifs
  · exact .refl s
  · split <;> exact ⟨rfl, rfl, rfl, rfl, rfl⟩

theorem sameMessages_record (s : Informer) (proof : EquivocationProof) (who : ValidatorId) :
    s.SameMessages (s.recordEquivocationProof P V E chainId proof who).1 := by
  unfold recordEquivocationProof
  split
  · exact .refl s
  · split_ifs
    · exact sameMessages_mint s proof who
    · exact .refl s

variable (P V E chainId) in
theorem sameMessages_applySafetyAction (s : Informer) (action : Action) :
    s.SameMessages (s.applySafetyAction P V E chainId action) := by
  cases action with
  | equivocationEvidence voter view blockA blockB =>
    change s.SameMessages (s.buildVoteEquivocationProof P V E chainId voter view blockA blockB).1
    unfold buildVoteEquivocationProof
    split
    · exact sameMessages_record s _ voter
    · exact .refl s
  | proposalEquivocationEvidence leader view blockA blockB =>
    change s.SameMessages
      (s.buildProposalEquivocationProof P V E chainId leader view blockA blockB).1
    unfold buildProposalEquivocationProof
    split
    · exact sameMessages_record s _ leader
    · exact .refl s
  | _ => exact .refl s

theorem sameMessages_foldl (s : Informer) (actions : List Action) :
    s.SameMessages (actions.foldl (applySafetyAction P V E chainId) s) := by
  have hone := sameMessages_applySafetyAction P V E chainId
  exact ⟨foldl_keeps (fun s a => (hone s a).core) s actions,
    foldl_keeps (fun s a => (hone s a).validatorHistory) s actions,
    foldl_keeps (fun s a => (hone s a).validatorKeyHistory) s actions,
    foldl_keeps (fun s a => (hone s a).seenVotes) s actions,
    foldl_keeps (fun s a => (hone s a).seenProposals) s actions⟩

variable (P V E chainId) in
theorem sameMessages_step (s : Informer) (order : IterOrder) (event : Event) :
    (s.stepSafety P order event).1.SameMessages (s.step P V E chainId (.event order event)) := by
  rw [step_event]
  exact sameMessages_foldl _ _

/-- Minting puts the command with the proof into the mempool. -/
theorem minted_record {proof : EquivocationProof} {who : ValidatorId}
    (hproof : verifyEquivocationProof V P proof s.validatorHistory s.validatorKeyHistory chainId =
      .ok who) :
    who ∈ s.evidenceMinted ∨ s.committedEvidence.containsKey who = true ∨
      s.mempool.maxSize ≤ s.mempool.order.length ∨
      E.digest (E.encodeEvidence proof) ∈
          (s.recordEquivocationProof P V E chainId proof who).1.mempool.seen ∧
        who ∈ (s.recordEquivocationProof P V E chainId proof who).1.evidenceMinted := by
  have hrecord : (s.recordEquivocationProof P V E chainId proof who).1 =
      (s.mintEquivocationEvidence E proof who).1 := by
    unfold recordEquivocationProof
    simp only [hproof, if_true]
  rw [hrecord, mintEquivocationEvidence]
  split_ifs with hknown
  · exact hknown.imp_right .inl
  · by_cases hfull : s.mempool.maxSize ≤ s.mempool.order.length
    · exact .inr (.inr (.inl hfull))
    · obtain ⟨hseen, hsome⟩ := InMemoryMempool.mem_seen_insert (E := E)
        (E.encodeEvidence proof) (not_le.mp hfull)
      refine .inr (.inr (.inr ?_))
      split
      · rename_i mempool _ heq
        rw [heq] at hseen
        exact ⟨hseen, Finset.mem_insert_self _ _⟩
      · rename_i heq
        rw [heq] at hsome
        cases hsome

theorem buildVoteEquivocationProof_of_seen {voter : ValidatorId} {view : ℕ}
    {blockA blockB : BlockHash} {a b : Signed Vote}
    (ha : s.seenVotes.get? (view, voter, blockA) = some a)
    (hb : s.seenVotes.get? (view, voter, blockB) = some b) :
    s.buildVoteEquivocationProof P V E chainId voter view blockA blockB =
      s.recordEquivocationProof P V E chainId (.doubleVote a b) voter := by
  unfold buildVoteEquivocationProof
  simp only [ha, hb]

theorem buildProposalEquivocationProof_of_seen {leader : ValidatorId} {view : ℕ}
    {blockA blockB : BlockHash} {a b : Signed Proposal}
    (ha : s.seenProposals.get? (view, leader, blockA) = some a)
    (hb : s.seenProposals.get? (view, leader, blockB) = some b) :
    s.buildProposalEquivocationProof P V E chainId leader view blockA blockB =
      s.recordEquivocationProof P V E chainId (.doubleProposal a b) leader := by
  unfold buildProposalEquivocationProof
  simp only [ha, hb]

/-- Two messages that are retained and make a proof are reported by recording it. -/
theorem reports_record {α : Type} {seen : Table MessageKey (Signed α)}
    {proof : Signed α → Signed α → EquivocationProof} {who : ValidatorId} {view : ℕ}
    {blockA blockB : BlockHash} {a b : Signed α} (ha : seen.get? (view, who, blockA) = some a)
    (hb : seen.get? (view, who, blockB) = some b)
    (hproof : verifyEquivocationProof V P (proof a b) s.validatorHistory s.validatorKeyHistory
      chainId = .ok who) :
    Reports P V E chainId s (s.recordEquivocationProof P V E chainId (proof a b) who).1 seen proof
      who view blockA blockB :=
  ⟨a, b, ha, hb, hproof, minted_record hproof⟩

theorem mem_remarks {order : IterOrder} {event : Event} {a : Action}
    (ha : a ∈ (s.stepSafety P order event).2) (hevidence : a.isEvidence = true) :
    a ∈ s.core.remarks P event := by
  rw [stepSafety_actions] at ha
  rw [← HotStuffCore.filter_isEvidence_step P s.core order event]
  exact List.mem_filter.mpr ⟨ha, hevidence⟩

/-- A vote that is reported makes a proof together with the one before. -/
theorem reports_vote {order : IterOrder} {event : Event} (h : s.Informed P V chainId all)
    (hall : .event order event ∈ all) (hin : s.Admitted P V chainId (.event order event))
    (hkeeps : s.KeepsEvidence P all (.event order event)) {voter : ValidatorId} {view : ℕ}
    {blockA blockB : BlockHash}
    (hremarks : s.core.remarks P event = [.equivocationEvidence voter view blockA blockB])
    (hkey : event.voteKey? = some (view, voter, blockB)) (hne : blockA ≠ blockB)
    (hget : s.core.voteDedupe.get? (view, voter) = some blockA) :
    Reports P V E chainId (s.stepSafety P order event).1
      (s.step P V E chainId (.event order event))
      (s.stepSafety P order event).1.seenVotes .doubleVote voter view blockA blockB := by
  have hnow := mem_voteKeys hall hkey
  have hafter := informed_stepSafety h hall hin hkeeps
  cases event with
  | voteReceived variant =>
    obtain ⟨rfl, hrest⟩ := Prod.mk.inj (Option.some.inj hkey)
    obtain ⟨rfl, rfl⟩ := Prod.mk.inj hrest
    obtain ⟨hbefore, a, b, ha, hb⟩ := h.votes.both_retained hget hnow hne (hkeeps.1 _ rfl)
      variant.signed.value
    have hstep : s.step P V E chainId (.event order (.voteReceived variant)) =
        ((s.stepSafety P order (.voteReceived variant)).1.recordEquivocationProof P V E chainId
          (.doubleVote a b) variant.signed.signerValidatorId).1 := by
      rw [step_event, hremarks, List.foldl_cons, List.foldl_nil, applySafetyAction,
        buildVoteEquivocationProof_of_seen ha hb]
    rw [hstep]
    exact reports_record ha hb (hafter.votes.proof hne hbefore hnow ha hb)
  | _ => cases hkey

/-- A proposal that is reported makes a proof together with the one before. -/
theorem reports_proposal {order : IterOrder} {event : Event} (h : s.Informed P V chainId all)
    (hall : .event order event ∈ all) (hin : s.Admitted P V chainId (.event order event))
    (hkeeps : s.KeepsEvidence P all (.event order event)) {leader : ValidatorId} {view : ℕ}
    {blockA blockB : BlockHash}
    (hremarks : s.core.remarks P event =
      [.proposalEquivocationEvidence leader view blockA blockB])
    (hkey : event.proposalKey? P = some (view, leader, blockB)) (hne : blockA ≠ blockB)
    (hget : s.core.proposalDedupe.get? (view, leader) = some blockA) :
    Reports P V E chainId (s.stepSafety P order event).1
      (s.step P V E chainId (.event order event))
      (s.stepSafety P order event).1.seenProposals .doubleProposal leader view blockA blockB := by
  have hnow := mem_proposalKeys hall hkey
  have hafter := informed_stepSafety h hall hin hkeeps
  cases event with
  | proposalReceived verified =>
    obtain ⟨rfl, hrest⟩ := Prod.mk.inj (Option.some.inj hkey)
    obtain ⟨rfl, rfl⟩ := Prod.mk.inj hrest
    obtain ⟨hbefore, a, b, ha, hb⟩ := h.proposals.both_retained hget hnow hne
      (hkeeps.2 _ rfl) verified.value
    have hstep : s.step P V E chainId (.event order (.proposalReceived verified)) =
        ((s.stepSafety P order (.proposalReceived verified)).1.recordEquivocationProof P V E
          chainId (.doubleProposal a b) verified.signerValidatorId).1 := by
      rw [step_event, hremarks, List.foldl_cons, List.foldl_nil, applySafetyAction,
        buildProposalEquivocationProof_of_seen ha hb]
    rw [hstep]
    exact reports_record ha hb (hafter.proposals.proof hne hbefore hnow ha hb)
  | _ => cases hkey

theorem evidenced_event {order : IterOrder} {event : Event} (h : s.Informed P V chainId all)
    (hall : .event order event ∈ all) (hin : s.Admitted P V chainId (.event order event))
    (hkeeps : s.KeepsEvidence P all (.event order event)) :
    s.Evidenced P V E chainId (.event order event) := by
  constructor
  · intro voter view blockA blockB hmem
    have hmem := mem_remarks hmem rfl
    rcases HotStuffCore.remarks_cases P s.core event with
      hnone | ⟨_, _, _, _, hone, hkey, hne, hget⟩ | ⟨_, _, _, _, hone, -, -, -⟩
    · rw [hnone] at hmem
      cases hmem
    · have he := hmem
      rw [hone, List.mem_singleton] at he
      injection he with hvoter hview hblockA hblockB
      subst hvoter hview hblockA hblockB
      exact reports_vote h hall hin hkeeps hone hkey hne hget
    · rw [hone, List.mem_singleton] at hmem
      cases hmem
  · intro leader view blockA blockB hmem
    have hmem := mem_remarks hmem rfl
    rcases HotStuffCore.remarks_cases P s.core event with
      hnone | ⟨_, _, _, _, hone, -, -, -⟩ | ⟨_, _, _, _, hone, hkey, hne, hget⟩
    · rw [hnone] at hmem
      cases hmem
    · rw [hone, List.mem_singleton] at hmem
      cases hmem
    · have he := hmem
      rw [hone, List.mem_singleton] at he
      injection he with hleader hview hblockA hblockB
      subst hleader hview hblockA hblockB
      exact reports_proposal h hall hin hkeeps hone hkey hne hget

theorem informed_step {input : InformerInput} (h : s.Informed P V chainId all)
    (hall : input ∈ all) (hin : s.Admitted P V chainId input)
    (hkeeps : s.KeepsEvidence P all input) :
    (s.step P V E chainId input).Informed P V chainId all := by
  cases input with
  | event order event =>
    exact (sameMessages_step P V E chainId s order event).informed
      (informed_stepSafety h hall hin hkeeps)
  | histories history keyHistory =>
    exact ⟨h.votes.rehistory hkeeps.1, h.proposals.rehistory hkeeps.2⟩
  | evidence proof who => exact (sameMessages_mint s proof who).informed h
  | committed who view => exact ⟨h.votes, h.proposals⟩
  | mempool mempool => exact ⟨h.votes, h.proposals⟩

end
end Informer

section
variable (P : Primitives) (V : Verifier) (E : EvidencePrimitives) (chainId : ChainId)

/-- What the core reports becomes evidence, as long as no message that matters finds the retained
messages full and no history takes one from its signer. -/
theorem evidence_follows (selfId : ValidatorId) (state : HotStuffState) (limits : CacheLimits)
    (keyHistory : ValidatorKeyHistory) (committedEvidence : Table ValidatorId ℕ)
    (mempool : InMemoryMempool) (inputs : List InformerInput)
    (hin : Along (Informer.step P V E chainId) (Informer.Admitted P V chainId)
      (.start (.withLimits selfId state limits) keyHistory committedEvidence mempool) inputs)
    (hkeeps : Along (Informer.step P V E chainId) (Informer.KeepsEvidence P inputs)
      (.start (.withLimits selfId state limits) keyHistory committedEvidence mempool) inputs) :
    Along (Informer.step P V E chainId) (Informer.Evidenced P V E chainId)
      (.start (.withLimits selfId state limits) keyHistory committedEvidence mempool) inputs := by
  have hall := (hin.and hkeeps).and (Along.of_forall fun _ h => h : Along _ _ _ inputs)
  refine hall.imp_of_invariant (I := Informer.Informed P V chainId inputs) ?_ ?_
  · rintro s input ⟨⟨hin, hkeeps⟩, hmem⟩ hs
    refine ⟨Informer.informed_step hs hmem hin hkeeps, ?_⟩
    cases input with
    | event order event => exact Informer.evidenced_event hs hmem hin hkeeps
    | _ => trivial
  · exact ⟨⟨nofun, nofun, nofun⟩, ⟨nofun, nofun, nofun⟩⟩

end

namespace Sample

/-- A validator votes with the key it has from the genesis. -/
def castVote (view : ℕ) (id : ValidatorId) (h : BlockHash) : InformerInput :=
  .event order (.voteReceived ⟨⟨⟨⟨view, h⟩, id, 0⟩, id⟩, id⟩)

def informer : Informer :=
  .start (.withLimits 1 (.new primitives validators genesis) .unboundedForTests)
    (.new [1, 2, 3, 4]) ∅ ⟨10, [], ∅⟩

/-- Commands are known by their length. -/
def encoding : EvidencePrimitives := ⟨fun _ => [7], List.length⟩

/-- The histories are those of the genesis. -/
structure AtGenesis (s : Informer) : Prop where
  validatorHistory : s.validatorHistory = .fromGenesis validators
  validatorKeyHistory : s.validatorKeyHistory = .new [1, 2, 3, 4]
  core : s.core.state.validatorHistory = .fromGenesis validators

theorem verifySignerAt_genesis {id : ValidatorId} (hid : id ∈ [1, 2, 3, 4]) (view : ℕ) :
    verifySignerAt id view (.fromGenesis validators) (.new [1, 2, 3, 4]) = .ok id := by
  have hknown : (ValidatorKeyHistory.new [1, 2, 3, 4]).validatorFor id = some id ∧
      (validators.indexOf id).isSome = true ∧
      (ValidatorKeyHistory.new [1, 2, 3, 4]).byStableId.get? id = some [⟨0, id⟩] := by
    revert id
    decide
  have hkey : (ValidatorKeyHistory.new [1, 2, 3, 4]).keyAt id view = some id := by
    rw [ValidatorKeyHistory.keyAt, hknown.2.2]
    simp [keyAt]
  unfold verifySignerAt
  refine bind_eq_ok.mpr ⟨id, by rw [hknown.1]; rfl, ?_⟩
  rw [ValidatorSetHistory.setAt_fromGenesis, hkey]
  refine bind_eq_ok.mpr ⟨(), if_pos hknown.2.1, ?_⟩
  exact bind_eq_ok.mpr ⟨id, rfl, bind_eq_ok.mpr ⟨(), if_pos (decide_eq_true rfl), rfl⟩⟩

theorem admitted_castVote {s : Informer} (h : AtGenesis s) (view : ℕ) {id : ValidatorId}
    (hid : id ∈ [1, 2, 3, 4]) (hash : BlockHash) :
    s.Admitted primitives verifier 0 (castVote view id hash) := by
  refine ⟨rfl, ?_⟩
  rw [h.validatorHistory, h.validatorKeyHistory]
  exact verifySignerAt_genesis hid view

theorem sameMessages_castVote (s : Informer) (view : ℕ) (id : ValidatorId) (hash : BlockHash) :
    (s.stepSafety primitives order
      (.voteReceived ⟨⟨⟨⟨view, hash⟩, id, 0⟩, id⟩, id⟩)).1.SameMessages
        (s.step primitives verifier encoding 0 (castVote view id hash)) :=
  Informer.sameMessages_step primitives verifier encoding 0 s order _

theorem atGenesis_castVote {s : Informer} (h : AtGenesis s) (view : ℕ) (id : ValidatorId)
    (hash : BlockHash) :
    AtGenesis (s.step primitives verifier encoding 0 (castVote view id hash)) := by
  have hsame := sameMessages_castVote s view id hash
  refine ⟨hsame.validatorHistory.trans h.validatorHistory,
    hsame.validatorKeyHistory.trans h.validatorKeyHistory, ?_⟩
  rw [hsame.core, Informer.stepSafety_core]
  exact (HotStuffCore.validatorHistory_step ..).trans h.core

/-- There is room for `m` more votes, validator 4 voted above view `100 + m`, and no vote of
validator 3 is noted. -/
structure Flooded (m : ℕ) (s : Informer) : Prop where
  genesis : AtGenesis s
  size : s.seenVotes.size + m = evidenceMapCap
  key : ∀ k v, s.seenVotes.get? k = some v → k.2.1 = 4 ∧ 100 + m ≤ k.1
  unheard : ∀ view, s.core.voteDedupe.get? (view, 3) = none

def flood : ℕ → List InformerInput
  | 0 => []
  | m + 1 => castVote (100 + m) 4 2 :: flood m

theorem flooded_step {m : ℕ} {s : Informer} (h : Flooded (m + 1) s) :
    Flooded m (s.step primitives verifier encoding 0 (castVote (100 + m) 4 2)) := by
  have hsame := sameMessages_castVote s (100 + m) 4 2
  have hseen : (s.step primitives verifier encoding 0 (castVote (100 + m) 4 2)).seenVotes =
      insertCapped s.seenVotes (100 + m, 4, 2) ⟨⟨100 + m, 2⟩, 4, 0⟩ := hsame.seenVotes
  have hsize := h.size
  have hnew : s.seenVotes.containsKey (100 + m, 4, 2) = false := by
    apply (Table.containsKey_eq_false_iff _ _).mpr
    by_contra hsome
    obtain ⟨v, hv⟩ := Option.ne_none_iff_exists'.mp hsome
    have hview : 100 + (m + 1) ≤ 100 + m := (h.key _ v hv).2
    omega
  refine ⟨atGenesis_castVote h.genesis _ _ _, ?_, ?_, ?_⟩
  · rw [hseen, size_insertCapped (by omega) hnew]
    omega
  · intro k v hk
    rw [hseen] at hk
    rcases of_get?_insertCapped hk with ⟨rfl, -⟩ | hbefore
    · exact ⟨rfl, le_rfl⟩
    · have hold := h.key k v hbefore
      exact ⟨hold.1, by omega⟩
  · intro view
    rw [hsame.core, Informer.stepSafety_core]
    by_contra hsome
    obtain ⟨hash, hget⟩ := Option.ne_none_iff_exists'.mp hsome
    rcases HotStuffCore.voteDedupe_step primitives s.core order _ _ _ hget with he | ⟨hbefore, -⟩
    · cases he
    · rw [h.unheard] at hbefore
      cases hbefore

theorem flooded_run {m : ℕ} {s : Informer} (h : Flooded m s) :
    Flooded 0 (run (Informer.step primitives verifier encoding 0) s (flood m)) := by
  induction m generalizing s with
  | zero => exact h
  | succ m ih => exact ih (flooded_step h)

theorem mem_flood {m : ℕ} {input : InformerInput} (h : input ∈ flood m) :
    ∃ view, input = castVote view 4 2 := by
  induction m with
  | zero => cases h
  | succ m ih =>
    rcases List.mem_cons.mp h with rfl | h
    · exact ⟨100 + m, rfl⟩
    · exact ih h

theorem dedupe_castVote {s : Informer} (h : AtGenesis s) (view : ℕ)
    (hash : BlockHash) (hnone : s.core.voteDedupe.get? (view, 3) = none) :
    (s.step primitives verifier encoding 0 (castVote view 3 hash)).core.voteDedupe.get? (view, 3) =
      some hash := by
  have hsame := sameMessages_castVote s view 3 hash
  rw [hsame.core, Informer.stepSafety_core,
    (HotStuffCore.sameVotes_step primitives s.core order _).voteDedupe]
  rcases HotStuffCore.recordVote_cases primitives s.core ⟨⟨⟨⟨view, hash⟩, 3, 0⟩, 3⟩, 3⟩ with
    ⟨-, i, hrec⟩ | ⟨hno, -, -⟩
  · refine (hrec.dedupe (view, 3)).trans ?_
    exact if_pos rfl
  · have hreaches : s.core.reaches ⟨view, hash⟩ 3 = true := by
      unfold HotStuffCore.reaches
      rw [h.core, ValidatorSetHistory.setAt_fromGenesis, hnone]
      rfl
    rw [hreaches] at hno
    cases hno

/-- Two votes of validator 3 are reported after the flood but neither was retained. -/
theorem unreported_of_flooded {s : Informer} (h : Flooded 0 s) :
    ¬ Along (Informer.step primitives verifier encoding 0)
      (Informer.Evidenced primitives verifier encoding 0) s
        [castVote 20 3 5, castVote 20 3 6] := by
  rintro ⟨-, hsecond, -⟩
  have hfull : ∀ hash, s.seenVotes.containsKey (20, 3, hash) = false := by
    intro hash
    apply (Table.containsKey_eq_false_iff _ _).mpr
    by_contra hsome
    obtain ⟨v, hv⟩ := Option.ne_none_iff_exists'.mp hsome
    exact absurd (h.key _ v hv).1 (show ¬ (3 : ℕ) = 4 by decide)
  have hseen : (s.step primitives verifier encoding 0 (castVote 20 3 5)).seenVotes =
      s.seenVotes := by
    have hsame := sameMessages_castVote s 20 3 5
    exact hsame.seenVotes.trans (insertCapped_of_full h.size.ge (hfull 5))
  have hgenesis := atGenesis_castVote h.genesis 20 3 5
  have hnoted := dedupe_castVote h.genesis 20 5 (h.unheard 20)
  generalize s.step primitives verifier encoding 0 (castVote 20 3 5) = s' at *
  have hevidence : .equivocationEvidence 3 20 5 6 ∈
      (s'.stepSafety primitives order (.voteReceived ⟨⟨⟨⟨20, 6⟩, 3, 0⟩, 3⟩, 3⟩)).2 := by
    have hreport : (s'.core.recordVote primitives ⟨⟨⟨⟨20, 6⟩, 3, 0⟩, 3⟩, 3⟩).2.1 =
        [.equivocationEvidence 3 20 5 6] := by
      unfold HotStuffCore.recordVote
      rw [hgenesis.core]
      simp only [ValidatorSetHistory.setAt_fromGenesis, hnoted]
      rfl
    have hmem : .equivocationEvidence 3 20 5 6 ∈
        (s'.core.remarks primitives (.voteReceived ⟨⟨⟨⟨20, 6⟩, 3, 0⟩, 3⟩, 3⟩)) := by
      rw [HotStuffCore.remarks, hreport]
      exact List.mem_singleton_self _
    rw [← HotStuffCore.filter_isEvidence_step primitives s'.core order] at hmem
    rw [Informer.stepSafety_actions]
    exact (List.mem_filter.mp hmem).1
  obtain ⟨a, -, ha, -⟩ := hsecond.1 3 20 5 6 hevidence
  change (insertCapped s'.seenVotes _ _).get? _ = _ at ha
  rw [hseen, insertCapped_of_full h.size.ge (hfull 6)] at ha
  exact absurd (h.key _ a ha).1 (show ¬ (3 : ℕ) = 4 by decide)

/-- Validator 3 votes for two blocks once the retained votes are full. -/
def blinding : List InformerInput := flood evidenceMapCap ++ [castVote 20 3 5, castVote 20 3 6]

theorem admitted_castVotes (inputs : List InformerInput)
    (h : ∀ input ∈ inputs, ∃ view id hash, id ∈ [1, 2, 3, 4] ∧ input = castVote view id hash) :
    Along (Informer.step primitives verifier encoding 0) (Informer.Admitted primitives verifier 0)
      informer inputs := by
  refine (Along.of_forall h).imp_of_invariant (I := AtGenesis) ?_ ⟨rfl, rfl, rfl⟩
  rintro s _ ⟨view, id, hash, hid, rfl⟩ hs
  exact ⟨atGenesis_castVote hs view id hash, admitted_castVote hs view hid hash⟩

/-- The two votes are reported but the first one is not retained. -/
theorem blinded :
    Along (Informer.step primitives verifier encoding 0) (Informer.Admitted primitives verifier 0)
      informer blinding ∧
    ¬ Along (Informer.step primitives verifier encoding 0)
      (Informer.Evidenced primitives verifier encoding 0) informer blinding := by
  constructor
  · refine admitted_castVotes blinding fun input h => ?_
    rcases List.mem_append.mp h with h | h
    · obtain ⟨view, rfl⟩ := mem_flood h
      exact ⟨view, 4, 2, by decide, rfl⟩
    · rcases List.mem_pair.mp h with rfl | rfl
      · exact ⟨20, 3, 5, by decide, rfl⟩
      · exact ⟨20, 3, 6, by decide, rfl⟩
  · intro h
    have hstart : Flooded evidenceMapCap informer :=
      ⟨⟨rfl, rfl, rfl⟩, Nat.zero_add _, nofun, fun _ => rfl⟩
    exact unreported_of_flooded (flooded_run hstart) h.append.2

/-- Nothing is in the way of the two votes of validator 3. -/
def unhindered : List InformerInput := [castVote 20 4 5, castVote 20 3 5, castVote 20 3 6]

theorem unhindered_evidenced :
    Along (Informer.step primitives verifier encoding 0)
      (Informer.Evidenced primitives verifier encoding 0) informer unhindered ∧
    3 ∈ (run (Informer.step primitives verifier encoding 0) informer
      unhindered).evidenceMinted := by
  have hin := admitted_castVotes unhindered fun input h => by
    simp only [unhindered, List.mem_cons, List.not_mem_nil, or_false] at h
    rcases h with rfl | rfl | rfl
    · exact ⟨20, 4, 5, by decide, rfl⟩
    · exact ⟨20, 3, 5, by decide, rfl⟩
    · exact ⟨20, 3, 6, by decide, rfl⟩
  refine ⟨evidence_follows primitives verifier encoding 0 1 (.new primitives validators genesis)
    .unboundedForTests (.new [1, 2, 3, 4]) ∅ ⟨10, [], ∅⟩ unhindered hin ?_, by decide +kernel⟩
  have hsizes : Along (Informer.step primitives verifier encoding 0)
      (fun s _ => s.seenVotes.size < evidenceMapCap) informer unhindered := by decide +kernel
  refine ⟨⟨fun _ _ _ => .inl hsizes.1, nofun⟩, ⟨fun _ _ _ => .inl hsizes.2.1, nofun⟩,
    ⟨fun _ _ _ => .inl hsizes.2.2.1, nofun⟩, trivial⟩

end Sample

end Boule
