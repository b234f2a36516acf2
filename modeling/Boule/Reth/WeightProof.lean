import Boule.Reth.Application

/-! Seated-weight writes: the weights that a proposer carries, the receipt proofs that it attaches
to them and what a voter checks. -/
namespace Boule

/-- Receipts in their EIP-2718 encoding and the trie over the receipts of a block. -/
structure ReceiptTrie (Raw Node Root : Type) where
  encode : Receipt → Raw
  decode : Raw → Option Receipt
  root : List Raw → Root
  prove : List Raw → ℕ → Option (List Node)
  verify : Root → ℕ → Raw → List Node → Bool

/-- What the trie is relied on for: an encoded receipt decodes, and each receipt of a block has an
inclusion proof that verifies. -/
structure ReceiptTrie.Lawful {Raw Node Root : Type} (T : ReceiptTrie Raw Node Root) : Prop where
  decode_encode : ∀ r, T.decode (T.encode r) = some r
  prove_isSome : ∀ (raws : List Raw) (i : ℕ), i < raws.length → (T.prove raws i).isSome = true
  verify_prove : ∀ raws i nodes raw, T.prove raws i = some nodes → raws[i]? = some raw →
    T.verify (T.root raws) i raw nodes = true

inductive LogKind where
  | deposit (amount : ℕ)
  | withdraw
  | slashed
  deriving DecidableEq

def classifyLog (log : Log) : Option LogKind :=
  match log.topics.head? with
  | none => none
  | some topic =>
    if log.address = stakingAddress ∧ topic = depositTopic then
      some (.deposit (dataWordToU64 log.data))
    else if log.address = stakingAddress ∧ topic = withdrawTopic then some .withdraw
    else if log.address = slashingAddress ∧ topic = slashedTopic then some .slashed
    else none

def logNodeId (log : Log) : Option NodeId := log.topics[1]?

def logIsFor (node : NodeId) (log : Log) : Bool :=
  (classifyLog log).isSome && logNodeId log = some node

def receiptHasLogFor (node : NodeId) (r : Receipt) : Bool := r.logs.any (logIsFor node)

structure WeightProof (Raw Node : Type) where
  nodeId : NodeId
  weight : ℕ
  anchorBlock : BlockHash
  receiptIndex : ℕ
  receipt : Raw
  proofNodes : List Node

inductive WeightProofError where
  | noProof (node : NodeId) (weight : ℕ)
  | weightMismatch (node : NodeId) (proven claimed : ℕ)
  | unknownAnchor (node : NodeId) (weight : ℕ) (anchor : BlockHash)
  | outOfWindow (node : NodeId) (weight sourceHeight carrierHeight : ℕ)
  | notIncluded (node : NodeId) (index : ℕ)
  | undecodable
  | noLog (node : NodeId)
  | slashedNotZero (node : NodeId) (weight : ℕ)
  | belowDeposits (node : NodeId) (deposits weight : ℕ)
  deriving DecidableEq

/-- The sum of the deposits among the logs, in `u128`; it does not overflow. -/
def depositSum (logs : List Log) : ℕ :=
  (logs.map fun l =>
    match classifyLog l with
    | some (.deposit amount) => amount
    | _ => 0).sum

def hasKind (kind : LogKind) (logs : List Log) : Bool := logs.any (classifyLog · = some kind)

def checkWeightConsistentWithLogs (node : NodeId) (weight : ℕ) (logs : List Log) :
    Except WeightProofError Unit :=
  if hasKind .slashed logs then require (weight = 0) (.slashedNotZero node weight)
  else if hasKind .withdraw logs then .ok ()
  else require (depositSum logs ≤ weight) (.belowDeposits node (depositSum logs) weight)

section
variable {Raw Node Root : Type} (T : ReceiptTrie Raw Node Root)

/-- `generate_one`; `none` for an error, which a proof that cannot be built is. -/
def WeightProof.generateOne (node : NodeId) (weight : ℕ) (anchorBlock : BlockHash)
    (receipts : List Receipt) : Option (Option (WeightProof Raw Node)) :=
  match receipts.findIdx? (receiptHasLogFor node) with
  | none => some none
  | some i => do
    let encoded := receipts.map T.encode
    let nodes ← T.prove encoded i
    let raw ← encoded[i]?
    return some ⟨node, weight, anchorBlock, i, raw, nodes⟩

def verifyOne (p : WeightProof Raw Node) (root : Root) :
    Except WeightProofError (List Log) := do
  require (T.verify root p.receiptIndex p.receipt p.proofNodes)
    (.notIncluded p.nodeId p.receiptIndex)
  let receipt ← okOr (T.decode p.receipt) .undecodable
  let logs := receipt.logs.filter (logIsFor p.nodeId)
  require (!logs.isEmpty) (.noLog p.nodeId)
  return logs

/-- The body of the loop of `verify_against_recent`; `resolve` gives the receipts root and the
height of a block. -/
def verifyClaim (proofs : List (WeightProof Raw Node)) (carrierHeight : ℕ)
    (resolve : BlockHash → Option (Root × ℕ)) (claim : NodeId × ℕ) :
    Except WeightProofError Unit := do
  let (node, weight) := claim
  let p ← okOr (proofs.find? (·.nodeId = node)) (.noProof node weight)
  require (p.weight = weight) (.weightMismatch node p.weight weight)
  let (root, sourceHeight) ← okOr (resolve p.anchorBlock) (.unknownAnchor node weight p.anchorBlock)
  require (sourceHeight < carrierHeight && carrierHeight - sourceHeight ≤ maxWeightProofAnchorLag)
    (.outOfWindow node weight sourceHeight carrierHeight)
  let logs ← verifyOne T p root
  checkWeightConsistentWithLogs node weight logs

def verifyAgainstRecent (proofs : List (WeightProof Raw Node))
    (claimedWeights : List (NodeId × ℕ)) (carrierHeight : ℕ)
    (resolve : BlockHash → Option (Root × ℕ)) : Except WeightProofError Unit :=
  claimedWeights.forM (verifyClaim T proofs carrierHeight resolve)

end

/-! ### The application -/

/-- The loop over uncommitted ancestors; a block without a payload is passed over. A chain of
distinct pending blocks is not longer than `pending`. -/
def uncommittedSources (pending : Table BlockHash RethBlock) (committedHeight : ℕ) :
    ℕ → RethBlock → List SourceCandidate → List SourceCandidate
  | 0, _, out => out
  | fuel + 1, cursor, out =>
    if maxWeightProofAnchorLag ≤ out.length || cursor.height ≤ committedHeight then out
    else
      match pending.get? cursor.parentHash with
      | none => out
      | some next =>
        uncommittedSources pending committedHeight fuel next
          (if next.payload.isSome then out ++ [next.source] else out)

/-- `weight_proof_source_candidates`: the parent, its uncommitted ancestors, then what was
committed last. -/
def weightProofSourceCandidates (parent : RethBlock) (pending : Table BlockHash RethBlock)
    (committedHeight : ℕ) (recentCommitted : List SourceCandidate) : List SourceCandidate :=
  let out := uncommittedSources pending committedHeight (pending.size + 1) parent [parent.source]
  recentCommitted.reverse.foldl (fun out c =>
    if maxWeightProofAnchorLag ≤ out.length || out.any (·.blockHash = c.blockHash) then out
    else out ++ [c]) out

namespace RethApplication

def candidates (a : RethApplication) (parent : RethBlock)
    (pending : Table BlockHash RethBlock) : List SourceCandidate :=
  weightProofSourceCandidates parent pending a.committed.height a.recentCommitted

end RethApplication

section
variable {Raw Node Root : Type} (T : ReceiptTrie Raw Node Root)

def RethBlock.receiptsRoot (b : RethBlock) : Option Root :=
  b.payload.map fun p => T.root (p.receipts.map T.encode)

/-- The proof for one weight from the first candidate that has one. -/
def buildWeightProof (node : NodeId) (weight : ℕ) :
    List SourceCandidate → Option (Option (WeightProof Raw Node))
  | [] => some none
  | c :: candidates =>
    match WeightProof.generateOne T node weight c.blockHash c.receipts with
    | some none => buildWeightProof node weight candidates
    | generated => generated

def buildWeightProofs (weights : List (NodeId × ℕ)) (candidates : List SourceCandidate) :
    Option (List (WeightProof Raw Node)) :=
  (weights.mapM fun e => buildWeightProof T e.1 e.2 candidates).map fun proofs =>
    proofs.filterMap id

def resolveRecent (recent : BlockHash → Option RethBlock) (anchor : BlockHash) :
    Option (Root × ℕ) := do
  let src ← recent anchor
  return (← src.receiptsRoot T, src.height)

/-- `validate_weight_proofs` of a block at the height, for the weights that it carries and the
proof set in its commands. -/
def validateWeightProofs (proofs : List (WeightProof Raw Node)) (weights : List (NodeId × ℕ))
    (height : ℕ) (recent : BlockHash → Option RethBlock) : Except WeightProofError Unit :=
  if weights.isEmpty then .ok ()
  else
    verifyAgainstRecent T proofs weights height (resolveRecent T recent)

/-- What a voter with these recent blocks says to the weights of the proposal that the
application builds on the parent; without proofs the block has no proof command. -/
def RethApplication.verdict (a : RethApplication) (parent : RethBlock)
    (pending : Table BlockHash RethBlock) (recent : BlockHash → Option RethBlock) :
    Except WeightProofError Unit :=
  validateWeightProofs T
    ((buildWeightProofs T a.weightsForBuild (a.candidates parent pending)).getD [])
    a.weightsForBuild (addU64 parent.height 1) recent

end

/-! ### When the weights are accepted -/

/-- The first candidate with a receipt that has a log for the node. -/
def sourceFor (node : NodeId) (candidates : List SourceCandidate) : Option SourceCandidate :=
  candidates.find? fun c => c.receipts.any (receiptHasLogFor node)

/-- The node's logs in the first receipt that has one. -/
def backingLogs (node : NodeId) (receipts : List Receipt) : List Log :=
  ((receipts.find? (receiptHasLogFor node)).map fun r => r.logs.filter (logIsFor node)).getD []

/-- The logs of one receipt speak for the weight: a slash for zero, a withdrawal for any weight,
deposits alone for no less than their sum. -/
def Backs (weight : ℕ) (logs : List Log) : Prop :=
  if hasKind .slashed logs then weight = 0
  else hasKind .withdraw logs = true ∨ depositSum logs ≤ weight

instance (weight : ℕ) (logs : List Log) : Decidable (Backs weight logs) :=
  inferInstanceAs (Decidable (if hasKind .slashed logs then weight = 0
    else hasKind .withdraw logs = true ∨ depositSum logs ≤ weight))

/-- The voter has the blocks that the proposer takes receipts from. -/
def SameRecent (a : RethApplication) (parent : RethBlock) (pending : Table BlockHash RethBlock)
    (recent : BlockHash → Option RethBlock) : Prop :=
  ∀ c ∈ a.candidates parent pending, c.receipts ≠ [] →
    ∃ src ∈ recent c.blockHash, src.payload.isSome ∧ src.receipts = c.receipts

/-- For each weight, the newest block with a log for its validator is in the window, and the first
receipt there with such a log speaks for the weight. -/
def WeightsBacked (a : RethApplication) (parent : RethBlock)
    (pending : Table BlockHash RethBlock) (recent : BlockHash → Option RethBlock) : Prop :=
  ∀ e ∈ a.weightsForBuild, ∃ c ∈ sourceFor e.1 (a.candidates parent pending),
    (∃ src ∈ recent c.blockHash, src.height < addU64 parent.height 1 ∧
      addU64 parent.height 1 - src.height ≤ maxWeightProofAnchorLag) ∧
      Backs e.2 (backingLogs e.1 c.receipts)

theorem checkWeightConsistentWithLogs_eq_ok {node : NodeId} {weight : ℕ} {logs : List Log} :
    checkWeightConsistentWithLogs node weight logs = .ok () ↔ Backs weight logs := by
  unfold checkWeightConsistentWithLogs Backs
  by_cases hs : hasKind .slashed logs
  · simp [hs]
  · by_cases hw : hasKind .withdraw logs
    · simp [hs, hw]
    · simp [hs, hw]

section
variable {Raw Node Root : Type} {T : ReceiptTrie Raw Node Root} {node : NodeId} {weight : ℕ}

/-- A proof for a weight, from a receipt with a log for the node. -/
structure ProofFrom (T : ReceiptTrie Raw Node Root) (node : NodeId) (weight : ℕ)
    (c : SourceCandidate) (p : WeightProof Raw Node) : Prop where
  nodeId : p.nodeId = node
  weight : p.weight = weight
  anchorBlock : p.anchorBlock = c.blockHash
  verified : verifyOne T p (T.root (c.receipts.map T.encode)) =
    .ok (backingLogs node c.receipts)

theorem generateOne_of_none {anchor : BlockHash} {receipts : List Receipt}
    (h : receipts.any (receiptHasLogFor node) = false) :
    WeightProof.generateOne T node weight anchor receipts = some none := by
  unfold WeightProof.generateOne
  have hnone : receipts.findIdx? (receiptHasLogFor node) = none := by
    rw [List.findIdx?_eq_none_iff]
    intro r hr
    exact List.any_eq_false.mp h r hr |> Bool.eq_false_of_not_eq_true
  rw [hnone]

variable (weight) in
theorem generateOne_of_any (hT : T.Lawful) {c : SourceCandidate}
    (h : c.receipts.any (receiptHasLogFor node) = true) :
    ∃ p, WeightProof.generateOne T node weight c.blockHash c.receipts = some (some p) ∧
      ProofFrom T node weight c p := by
  obtain ⟨i, hi⟩ := Option.isSome_iff_exists.mp (List.findIdx?_isSome.trans h)
  obtain ⟨hlt, hhas, hbefore⟩ := List.findIdx?_eq_some_iff_getElem.mp hi
  have hfind : c.receipts.find? (receiptHasLogFor node) = some c.receipts[i] :=
    List.find?_eq_some_iff_getElem.mpr ⟨hhas, i, hlt, rfl, by simpa using hbefore⟩
  have hraw : (c.receipts.map T.encode)[i]? = some (T.encode c.receipts[i]) := by
    rw [List.getElem?_map, List.getElem?_eq_getElem hlt]
    rfl
  obtain ⟨nodes, hnodes⟩ := Option.isSome_iff_exists.mp
    (hT.prove_isSome (c.receipts.map T.encode) i (by rw [List.length_map]; exact hlt))
  refine ⟨⟨node, weight, c.blockHash, i, T.encode c.receipts[i], nodes⟩, ?_, rfl, rfl, rfl, ?_⟩
  · unfold WeightProof.generateOne
    simp only [hi, hnodes, hraw, Option.bind_eq_bind, Option.bind_some, Option.pure_def]
  · have hlogs : backingLogs node c.receipts = c.receipts[i].logs.filter (logIsFor node) := by
      unfold backingLogs
      rw [hfind]
      rfl
    have hne : c.receipts[i].logs.filter (logIsFor node) ≠ [] := by
      obtain ⟨l, hl, hfor⟩ := List.any_eq_true.mp hhas
      exact List.ne_nil_of_mem (List.mem_filter.mpr ⟨hl, hfor⟩)
    rw [hlogs]
    refine bind_eq_ok.mpr ⟨(), require_eq_ok.mpr (hT.verify_prove _ i nodes _ hnodes hraw),
      bind_eq_ok.mpr ⟨_, okOr_eq_ok.mpr (hT.decode_encode _),
        bind_eq_ok.mpr ⟨(), require_eq_ok.mpr ?_, rfl⟩⟩⟩
    simpa using hne

variable (node weight) in
/-- The proof for a weight is one from the first candidate with a log for the node. -/
theorem buildWeightProof_eq (hT : T.Lawful) (candidates : List SourceCandidate) :
    ∃ found, buildWeightProof T node weight candidates = some found ∧
      Option.Rel (ProofFrom T node weight) (sourceFor node candidates) found := by
  induction candidates with
  | nil => exact ⟨none, rfl, .none⟩
  | cons c candidates ih =>
    cases hany : c.receipts.any (receiptHasLogFor node) with
    | true =>
      obtain ⟨p, hgen, hp⟩ := generateOne_of_any weight hT hany
      refine ⟨some p, ?_, ?_⟩
      · rw [buildWeightProof, hgen]
      · simp only [sourceFor, List.find?_cons, hany]
        exact .some hp
    | false =>
      obtain ⟨found, hbuild, hrel⟩ := ih
      refine ⟨found, ?_, ?_⟩
      · rw [buildWeightProof, generateOne_of_none hany, hbuild]
      · simp only [sourceFor, List.find?_cons, hany]
        exact hrel

theorem mapM_eq_some_map {α β : Type} {f : α → Option β} {g : α → β} (h : ∀ a, f a = some (g a))
    (l : List α) : l.mapM f = some (l.map g) := by
  induction l with
  | nil => rfl
  | cons a l ih =>
    rw [List.mapM_cons, h, ih]
    rfl

/-- Among proofs that name their weights' nodes, the one found for a node is its own. -/
theorem find?_filterMap {g : NodeId × ℕ → Option (WeightProof Raw Node)}
    {weights : List (NodeId × ℕ)} (hg : ∀ e p, g e = some p → p.nodeId = e.1)
    (hnodup : (weights.map Prod.fst).Nodup) {e : NodeId × ℕ} (he : e ∈ weights) :
    (weights.filterMap g).find? (·.nodeId = e.1) = g e := by
  induction weights with
  | nil => cases he
  | cons e' weights ih =>
    obtain ⟨hnew, hnodup⟩ := List.nodup_cons.mp hnodup
    rcases List.mem_cons.mp he with rfl | he
    · have hrest : (weights.filterMap g).find? (·.nodeId = e.1) = none := by
        rw [List.find?_eq_none]
        intro p hp heq
        obtain ⟨e', he', hge⟩ := List.mem_filterMap.mp hp
        have hname := (hg e' p hge).symm.trans (of_decide_eq_true heq)
        exact hnew (List.mem_map.mpr ⟨e', he', hname⟩)
      cases hge : g e with
      | none => rw [List.filterMap_cons_none hge, hrest]
      | some p =>
        rw [List.filterMap_cons_some hge]
        exact List.find?_cons_of_pos (decide_eq_true (hg e p hge))
    · have hne : e'.1 ≠ e.1 := fun heq => hnew (heq ▸ List.mem_map_of_mem he)
      cases hge : g e' with
      | none => rw [List.filterMap_cons_none hge, ih hnodup he]
      | some p =>
        rw [List.filterMap_cons_some hge, List.find?_cons_of_neg, ih hnodup he]
        simpa [hg e' p hge] using hne

/-- The proof that the proposer finds for a weight. -/
def proofFor (T : ReceiptTrie Raw Node Root) (candidates : List SourceCandidate)
    (e : NodeId × ℕ) : Option (WeightProof Raw Node) :=
  (buildWeightProof T e.1 e.2 candidates).getD none

theorem rel_proofFor (hT : T.Lawful) (candidates : List SourceCandidate) (e : NodeId × ℕ) :
    buildWeightProof T e.1 e.2 candidates = some (proofFor T candidates e) ∧
      Option.Rel (ProofFrom T e.1 e.2) (sourceFor e.1 candidates) (proofFor T candidates e) := by
  obtain ⟨found, hbuild, hrel⟩ := buildWeightProof_eq e.1 e.2 hT candidates
  unfold proofFor
  rw [hbuild]
  exact ⟨rfl, hrel⟩

theorem buildWeightProofs_eq (hT : T.Lawful) (candidates : List SourceCandidate)
    (weights : List (NodeId × ℕ)) :
    buildWeightProofs T weights candidates = some (weights.filterMap (proofFor T candidates)) := by
  unfold buildWeightProofs
  rw [mapM_eq_some_map fun e => (rel_proofFor hT candidates e).1, Option.map_some,
    List.filterMap_map]
  rfl

theorem nodup_weightsForBuild (a : RethApplication) :
    (a.weightsForBuild.map Prod.fst).Nodup := by
  have hperm : a.weightsForBuild.Perm a.pendingWeights.toList := List.perm_insertionSort _ _
  rw [(hperm.map Prod.fst).nodup_iff]
  unfold Table.toList
  rw [List.map_map]
  exact a.pendingWeights.nodupKeys

theorem resolveRecent_eq {recent : BlockHash → Option RethBlock} {anchor : BlockHash}
    {src : RethBlock} (hsrc : src ∈ recent anchor) (hpayload : src.payload.isSome) :
    resolveRecent T recent anchor = some (T.root (src.receipts.map T.encode), src.height) := by
  obtain ⟨payload, hpayload⟩ := Option.isSome_iff_exists.mp hpayload
  unfold resolveRecent RethBlock.receiptsRoot RethBlock.receipts
  simp only [Option.mem_def.mp hsrc, hpayload, Option.map_some, Option.getD_some,
    Option.bind_eq_bind, Option.bind_some, Option.pure_def]

/-- A weight with a proof is accepted when its source is in the window and the receipt speaks for
it. -/
theorem verifyClaim_of_proof {proofs : List (WeightProof Raw Node)} {carrierHeight height : ℕ}
    {resolve : BlockHash → Option (Root × ℕ)} {e : NodeId × ℕ} {p : WeightProof Raw Node}
    {c : SourceCandidate} (hfind : proofs.find? (·.nodeId = e.1) = some p)
    (hproof : ProofFrom T e.1 e.2 c p)
    (hresolve : resolve p.anchorBlock = some (T.root (c.receipts.map T.encode), height)) :
    verifyClaim T proofs carrierHeight resolve e = .ok () ↔
      (height < carrierHeight ∧ carrierHeight - height ≤ maxWeightProofAnchorLag) ∧
        Backs e.2 (backingLogs e.1 c.receipts) := by
  unfold verifyClaim
  simp only [hfind]
  constructor
  · intro h
    obtain ⟨_, hp, h⟩ := bind_eq_ok.mp h
    obtain rfl := Option.some.inj (okOr_eq_ok.mp hp)
    obtain ⟨_, -, h⟩ := bind_eq_ok.mp h
    obtain ⟨_, hsource, h⟩ := bind_eq_ok.mp h
    obtain rfl := Option.some.inj (hresolve.symm.trans (okOr_eq_ok.mp hsource))
    obtain ⟨_, hwindow, h⟩ := bind_eq_ok.mp h
    obtain ⟨logs, hlogs, h⟩ := bind_eq_ok.mp h
    obtain rfl := Except.ok.inj (hproof.verified.symm.trans hlogs)
    refine ⟨?_, checkWeightConsistentWithLogs_eq_ok.mp h⟩
    simpa using require_eq_ok.mp hwindow
  · rintro ⟨hwindow, hbacks⟩
    exact bind_eq_ok.mpr ⟨p, rfl, bind_eq_ok.mpr ⟨(),
      require_eq_ok.mpr (decide_eq_true hproof.weight), bind_eq_ok.mpr ⟨_,
      okOr_eq_ok.mpr hresolve, bind_eq_ok.mpr ⟨(), require_eq_ok.mpr (by simpa using hwindow),
        bind_eq_ok.mpr ⟨_, hproof.verified, checkWeightConsistentWithLogs_eq_ok.mpr hbacks⟩⟩⟩⟩⟩

/-- A weight is accepted when the first candidate with a log for its validator is in the window
and the first receipt there with such a log speaks for the weight. -/
theorem verifyClaim_eq_ok (hT : T.Lawful) {candidates : List SourceCandidate}
    {recent : BlockHash → Option RethBlock} {carrierHeight : ℕ} {weights : List (NodeId × ℕ)}
    (hsame : ∀ c ∈ candidates, c.receipts ≠ [] →
      ∃ src ∈ recent c.blockHash, src.payload.isSome ∧ src.receipts = c.receipts)
    (hnodup : (weights.map Prod.fst).Nodup) {e : NodeId × ℕ} (he : e ∈ weights) :
    verifyClaim T (weights.filterMap (proofFor T candidates)) carrierHeight
        (resolveRecent T recent) e = .ok () ↔
      ∃ c ∈ sourceFor e.1 candidates, (∃ src ∈ recent c.blockHash,
        src.height < carrierHeight ∧ carrierHeight - src.height ≤ maxWeightProofAnchorLag) ∧
          Backs e.2 (backingLogs e.1 c.receipts) := by
  have hname : ∀ e p, proofFor T candidates e = some p → p.nodeId = e.1 := by
    intro e p hp
    have hrel := (rel_proofFor hT candidates e).2
    generalize sourceFor e.1 candidates = source at hrel
    rw [hp] at hrel
    cases hrel with
    | some h => exact h.nodeId
  have hfind := find?_filterMap hname hnodup he
  have hrel := (rel_proofFor hT candidates e).2
  generalize proofFor T candidates e = found at hfind hrel
  cases hsource : sourceFor e.1 candidates with
  | none =>
    rw [hsource] at hrel
    cases hrel
    have hfails : verifyClaim T (weights.filterMap (proofFor T candidates)) carrierHeight
        (resolveRecent T recent) e = .error (.noProof e.1 e.2) := by
      unfold verifyClaim
      simp only [hfind]
      rfl
    rw [hfails]
    simp
  | some c =>
    rw [hsource] at hrel
    cases hrel with
    | @some _ p hproof =>
      have hany := List.find?_some hsource
      have hne : c.receipts ≠ [] := by
        intro hnil
        rw [hnil] at hany
        cases hany
      obtain ⟨src, hsrc, hpayload, hreceipts⟩ :=
        hsame c (List.mem_of_find?_eq_some hsource) hne
      have hresolve := resolveRecent_eq (T := T) hsrc hpayload
      rw [hreceipts, ← hproof.anchorBlock] at hresolve
      rw [verifyClaim_of_proof hfind hproof hresolve]
      simp [Option.mem_def.mp hsrc]

end

namespace RethApplication
variable {Raw Node Root : Type} {T : ReceiptTrie Raw Node Root}

/-- The weights of a proposal are accepted exactly when each has its backing. -/
theorem verdict_eq_ok (hT : T.Lawful) {a : RethApplication} {parent : RethBlock}
    {pending : Table BlockHash RethBlock} {recent : BlockHash → Option RethBlock}
    (hsame : SameRecent a parent pending recent) :
    a.verdict T parent pending recent = .ok () ↔ WeightsBacked a parent pending recent := by
  unfold verdict validateWeightProofs
  split_ifs with hempty
  · have hnil : a.weightsForBuild = [] := List.isEmpty_iff.mp hempty
    simp [WeightsBacked, hnil]
  · rw [buildWeightProofs_eq hT, Option.getD_some]
    unfold verifyAgainstRecent WeightsBacked
    rw [forM_eq_ok]
    exact forall₂_congr fun e he => verifyClaim_eq_ok hT hsame (nodup_weightsForBuild a) he

end RethApplication

/-! ### Runs -/

/-- A committed block with the answer of the execution layer, a validator that committed evidence
convicts, or a proposal on the parent that a voter with these recent blocks sees. -/
inductive RethInput where
  | commit (block : RethBlock) (answer : ElAnswer)
  | slash (node : NodeId)
  | propose (parent : RethBlock) (pending : Table BlockHash RethBlock)
      (recent : BlockHash → Option RethBlock)

namespace RethApplication

def step (logsAt : ℕ → List Log) (a : RethApplication) : RethInput → RethApplication
  | .commit block answer => (a.commit logsAt block answer).1
  | .slash node => a.slash node
  | .propose _ _ _ => a

def ProposalAccepted {Raw Node Root : Type} (T : ReceiptTrie Raw Node Root)
    (a : RethApplication) : RethInput → Prop
  | .propose parent pending recent => SameRecent a parent pending recent →
    a.verdict T parent pending recent = .ok ()
  | _ => True

def ProposalBacked (a : RethApplication) : RethInput → Prop
  | .propose parent pending recent => SameRecent a parent pending recent →
    WeightsBacked a parent pending recent
  | _ => True

/-- Over every sequence of executed blocks, all proposals are accepted exactly when the weights of
each have their backing. -/
theorem accepted_iff_backed {Raw Node Root : Type} (T : ReceiptTrie Raw Node Root)
    (hT : T.Lawful) (logsAt : ℕ → List Log) (genesis : List (NodeId × ℕ)) (genesisRoot : Bytes32)
    (inputs : List RethInput) :
    Along (step logsAt) (ProposalAccepted T) (start genesis genesisRoot) inputs ↔
      Along (step logsAt) ProposalBacked (start genesis genesisRoot) inputs := by
  apply Along.congr
  intro a input
  cases input with
  | commit block answer => exact Iff.rfl
  | slash node => exact Iff.rfl
  | propose parent pending recent =>
    exact forall_congr' fun hsame => verdict_eq_ok hT hsame

end RethApplication

instance (a : RethApplication) (parent : RethBlock) (pending : Table BlockHash RethBlock)
    (recent : BlockHash → Option RethBlock) : Decidable (SameRecent a parent pending recent) :=
  inferInstanceAs (Decidable (∀ c ∈ a.candidates parent pending, _ →
    ∃ src ∈ recent c.blockHash, _ ∧ _))

instance (a : RethApplication) (parent : RethBlock) (pending : Table BlockHash RethBlock)
    (recent : BlockHash → Option RethBlock) : Decidable (WeightsBacked a parent pending recent) :=
  inferInstanceAs (Decidable (∀ e ∈ a.weightsForBuild,
    ∃ c ∈ sourceFor e.1 (a.candidates parent pending),
      (∃ src ∈ recent c.blockHash, _ ∧ _) ∧ Backs e.2 _))

namespace Sample

/-- The root lists the receipts, and so does every proof. -/
def receiptTrie : ReceiptTrie Receipt Receipt (List Receipt) where
  encode := id
  decode := some
  root := id
  prove := fun raws i => if i < raws.length then some raws else none
  verify := fun root i raw nodes => nodes = root && root[i]? = some raw

theorem receiptTrie_lawful : receiptTrie.Lawful where
  decode_encode := fun _ => rfl
  prove_isSome := by
    intro raws i hi
    simp [receiptTrie, hi]
  verify_prove := by
    intro raws i nodes raw hnodes hraw
    simp only [receiptTrie] at hnodes ⊢
    split_ifs at hnodes
    simp [Option.some.inj hnodes, ← hraw]

def depositLog (node amount : ℕ) : Log :=
  ⟨stakingAddress, [depositTopic, node], List.replicate 31 0 ++ [.ofNat amount]⟩

def slashedLog (node : ℕ) : Log := ⟨slashingAddress, [slashedTopic, node], []⟩

/-- A block of height 1 with one receipt for each list of logs. -/
def executed (logs : List (List Log)) : RethBlock where
  hash := 1
  parentHash := 0
  height := 1
  payload := some ⟨some 1, 0, logs.map fun ls => ⟨2, true, 21000, ls⟩, []⟩
  offenders := []

/-- The block is committed and the next proposal is built on it. -/
def carrying (b : RethBlock) : List RethInput :=
  [.commit b .valid, .propose b ∅ fun hash => if hash = b.hash then some b else none]

/-- Validator 7 with stake 10 is given 100 more. -/
def deposited : RethBlock := executed [[depositLog 7 100]]

/-- No block is executed behind the application. -/
def nothingMissed (_ : ℕ) : List Log := []

theorem deposit_accepted :
    ((RethApplication.start [(7, 10)] 0).commit nothingMissed deposited
        .valid).1.weightsForBuild = [(7, 110)] ∧
      Along (RethApplication.step nothingMissed) (RethApplication.ProposalAccepted receiptTrie)
        (.start [(7, 10)] 0) (carrying deposited) :=
  ⟨by decide +kernel, (RethApplication.accepted_iff_backed receiptTrie receiptTrie_lawful
    nothingMissed [(7, 10)] 0 (carrying deposited)).mpr
      ⟨trivial, fun _ => by decide +kernel, trivial⟩⟩

/-- It is slashed in a later transaction of the block. -/
def depositedAndSlashed : RethBlock := executed [[depositLog 7 100], [slashedLog 7]]

theorem slash_after_deposit_refused :
    ¬ Along (RethApplication.step nothingMissed) (RethApplication.ProposalAccepted receiptTrie)
      (.start [(7, 10)] 0) (carrying depositedAndSlashed) := by
  intro h
  have hok := h.2.1 (by decide +kernel)
  have herror : ((RethApplication.start [(7, 10)] 0).commit nothingMissed depositedAndSlashed
      .valid).1.verdict receiptTrie depositedAndSlashed ∅
        (fun hash => if hash = depositedAndSlashed.hash then some depositedAndSlashed else none) =
      .error (.belowDeposits 7 100 0) := by
    decide +kernel
  cases herror.symm.trans hok

end Sample

end Boule
