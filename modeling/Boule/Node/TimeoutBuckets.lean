import Boule.Lib.Run
import Boule.Node.Heard

/-! The buckets in which a node counts timeout votes, and the weight behind the events that they
fire. -/
namespace Boule
open ConsensusNode

namespace ValidatorSet

def quorumWeightThreshold (vs : ValidatorSet) : ℕ :=
  if vs.totalWeight = 0 then 1 else saturatingMulU128 2 vs.totalWeight / 3 + 1

def honestyWeightThreshold (vs : ValidatorSet) : ℕ :=
  if vs.totalWeight = 0 then 1 else vs.totalWeight / 3 + 1

/-- The weight that the validators of the list hold together, each counted once. -/
def heldBy (vs : ValidatorSet) (ids : List ValidatorId) : ℕ :=
  (ids.dedup.map fun id => (vs.weightFor id).getD 0).sum

end ValidatorSet

structure TimeoutBucket where
  signers : List NodeId
  signerWeight : ℕ
  bestHighQc : Option QuorumCertificate
  deriving DecidableEq

/-- What `on_timeout_vote` does besides counting: the `NewView` for a peer that is behind, the
round sync, the certificate of the bucket for the core, the timeout certificate. -/
inductive TimeoutEffect where
  | catchUp (peer : NodeId) (highQc : QuorumCertificate)
  | roundSync (view : ℕ)
  | adopt (highQc : QuorumCertificate)
  | timeoutCert (view : ℕ)
  deriving DecidableEq

def TimeoutEffect.pacemakerEvent? : TimeoutEffect → Option PacemakerEvent
  | .roundSync view => some (.onRoundSync view)
  | .timeoutCert view => some (.onTimeoutCert view)
  | _ => none

/-- The bucket of the least view makes room when the buckets are at their capacity. -/
def evictTimeoutBucketsToFitOne (capacity : ℕ) (buckets : Table ℕ TimeoutBucket) :
    Table ℕ TimeoutBucket :=
  if buckets.size < capacity then buckets
  else
    match buckets.minBy fun view _ => view with
    | none => buckets
    | some victim => buckets.erase victim.1

/-- The buckets, with room for one more when there is none for the view. -/
def openedBuckets (capacity : ℕ) (buckets : Table ℕ TimeoutBucket) (view : ℕ) :
    Table ℕ TimeoutBucket :=
  if buckets.containsKey view then buckets else evictTimeoutBucketsToFitOne capacity buckets

/-- The round sync that a bucket fires when it crosses the honesty threshold. -/
def crossing (vs : ValidatorSet) (view before after : ℕ) : List TimeoutEffect :=
  if before < vs.honestyWeightThreshold ∧ vs.honestyWeightThreshold ≤ after then
    [.roundSync view]
  else []

namespace TimeoutBucket

def empty : TimeoutBucket := ⟨[], 0, none⟩

/-- The certificate of the vote replaces an older one. -/
def adoptFresher (best highQc : Option QuorumCertificate) : Option QuorumCertificate :=
  match best, highQc with
  | best, none => best
  | none, some qc => some qc
  | some cur, some qc => if cur.view < qc.view then some qc else some cur

def add (bucket : TimeoutBucket) (signed : Signed TimeoutVote) (highQcTrusted : Bool)
    (weight : ℕ) : TimeoutBucket where
  signers := signed.signer :: bucket.signers
  signerWeight := saturatingAddU128 bucket.signerWeight weight
  bestHighQc :=
    if highQcTrusted then adoptFresher bucket.bestHighQc signed.payload.highQc
    else bucket.bestHighQc

end TimeoutBucket

namespace ConsensusNode

/-- The reply to a vote for a view that has passed. -/
def catchUp (n : ConsensusNode) (peer : NodeId) : List TimeoutEffect :=
  if n.isFull then []
  else
    match n.core.state.highQc with
    | none => []
    | some qc => [.catchUp peer qc]

def onTimeoutVote (n : ConsensusNode) (capacity : ℕ) (buckets : Table ℕ TimeoutBucket)
    (signed : Signed TimeoutVote) (highQcTrusted : Bool) :
    Table ℕ TimeoutBucket × List TimeoutEffect :=
  let view := signed.payload.view
  match n.validatorKeyHistory.validatorFor signed.signer with
  | none => (buckets, [])
  | some stableId =>
    if !n.validatorSet.contains stableId then (buckets, [])
    else if view < n.currentView then (buckets, n.catchUp signed.signer)
    else
      let buckets := openedBuckets capacity buckets view
      let bucket := (buckets.get? view).getD .empty
      if signed.signer ∈ bucket.signers then (buckets, [])
      else
        let added := bucket.add signed highQcTrusted ((n.validatorSet.weightFor stableId).getD 0)
        let roundSync := crossing n.validatorSet view bucket.signerWeight added.signerWeight
        if added.signerWeight < n.validatorSet.quorumWeightThreshold then
          (buckets.insert view added, roundSync)
        else
          (Table.retain (buckets.erase view) fun v _ => view < v,
            roundSync ++ added.bestHighQc.toList.map .adopt ++ [.timeoutCert view])

/-- The validator for which the vote is counted, if it is. -/
def countsFor (n : ConsensusNode) (buckets : Table ℕ TimeoutBucket)
    (signed : Signed TimeoutVote) : Option ValidatorId := do
  let stableId ← n.validatorKeyHistory.validatorFor signed.signer
  let counted := (buckets.get? signed.payload.view).any fun b => signed.signer ∈ b.signers
  if n.validatorSet.contains stableId && n.currentView ≤ signed.payload.view && !counted then
    return stableId
  else none

end ConsensusNode

/-! ### Runs -/

/-- A counted vote: the validator and the key that signed. -/
structure CountedVote where
  stableId : ValidatorId
  signer : NodeId
  deriving DecidableEq

/-- A node that counts timeout votes. `counted` are the votes that went into the bucket of a
view since it was opened. -/
structure TimeoutTeller where
  storage : Storage
  node : ConsensusNode
  timeoutBuckets : Table ℕ TimeoutBucket
  counted : ℕ → List CountedVote

/-- What the core does with a certificate that a bucket hands it, and what it commits, comes as
inputs of its own. -/
inductive TellerInput where
  | timeoutVote (signed : Signed TimeoutVote) (highQcTrusted : Bool)
  | pacemaker (event : PacemakerEvent)
  | safety (order : IterOrder) (event : Event)
  | commit (block : Block)
  | restore (manifest : SnapshotManifest)

namespace TimeoutTeller

def start (storage : Storage) (n : ConsensusNode) : TimeoutTeller := ⟨storage, n, ∅, fun _ => []⟩

/-- The votes in the bucket of the view, none if it is not open. -/
def countedIn (s : TimeoutTeller) (view : ℕ) : List CountedVote :=
  if s.timeoutBuckets.containsKey view then s.counted view else []

/-- The votes counted for each view once the vote has been dealt with. -/
def noteVote (s : TimeoutTeller) (signed : Signed TimeoutVote) : ℕ → List CountedVote :=
  match s.node.countsFor s.timeoutBuckets signed with
  | none => s.counted
  | some id =>
    Function.update s.counted signed.payload.view
      (⟨id, signed.signer⟩ :: s.countedIn signed.payload.view)

/-- The set that the node's history has for the view. -/
def setAt (s : TimeoutTeller) (view : ℕ) : ValidatorSet := s.node.validatorHistory.setAt view

end TimeoutTeller

namespace ConsensusNode

def stepPacemaker (n : ConsensusNode) (event : PacemakerEvent) : ConsensusNode :=
  { n with pacemaker := (n.pacemaker.step n.leads event).1 }

end ConsensusNode

namespace TimeoutTeller
section
variable (P : Primitives) (R : HistoryPrimitives) (chainId : ChainId) (minVEffDelay capacity : ℕ)

/-- What the input makes the buckets fire. -/
def effects (s : TimeoutTeller) : TellerInput → List TimeoutEffect
  | .timeoutVote signed highQcTrusted =>
    (s.node.onTimeoutVote capacity s.timeoutBuckets signed highQcTrusted).2
  | _ => []

/-- A commit that fails leaves nothing that could go on; it is passed over. -/
def step (s : TimeoutTeller) (input : TellerInput) : TimeoutTeller :=
  match input with
  | .timeoutVote signed highQcTrusted =>
    let (buckets, effects) :=
      s.node.onTimeoutVote capacity s.timeoutBuckets signed highQcTrusted
    { s with
      node := (effects.filterMap TimeoutEffect.pacemakerEvent?).foldl
        ConsensusNode.stepPacemaker s.node
      timeoutBuckets := buckets
      counted := s.noteVote signed }
  | .pacemaker event => { s with node := s.node.stepPacemaker event }
  | .safety order event => { s with node.core := (s.node.core.step P order event).1 }
  | .commit block =>
    match s.node.applyCommittedHistories R chainId minVEffDelay s.storage block with
    | none => s
    | some (storage, n) => { s with storage := storage, node := n }
  | .restore manifest =>
    let (storage, n, _) := s.node.restoreFromSnapshot P s.storage manifest
    { s with storage := storage, node := n }

end
end TimeoutTeller

/-- What is fired for a view is backed by weight in the set of that view, and nobody is counted
twice. -/
structure WeightBacked (P : Primitives) (R : HistoryPrimitives) (chainId : ChainId)
    (minVEffDelay capacity : ℕ) (s : TimeoutTeller) (input : TellerInput) : Prop where
  timeoutCert : ∀ v, .timeoutCert v ∈ s.effects capacity input →
    2 * (s.setAt v).totalWeight < 3 * (s.setAt v).heldBy
      (((s.step P R chainId minVEffDelay capacity input).counted v).map CountedVote.stableId)
  roundSync : ∀ v, .roundSync v ∈ s.effects capacity input →
    (s.setAt v).honestyWeightThreshold ≤ (s.setAt v).heldBy
        (((s.step P R chainId minVEffDelay capacity input).counted v).map CountedVote.stableId) ∧
      (s.setAt v).totalWeight < 3 * (s.setAt v).heldBy
        (((s.step P R chainId minVEffDelay capacity input).counted v).map CountedVote.stableId)
  once : ∀ v, (((s.step P R chainId minVEffDelay capacity input).counted v).map
    CountedVote.stableId).Nodup

/-- A vote that is counted meets the set of its view as the cached one, and its validator has no
vote under another key in the bucket; a restore keeps the cached set while a bucket is open. -/
def CountsInTurn (P : Primitives) (s : TimeoutTeller) : TellerInput → Prop
  | .timeoutVote signed _ => ∀ id ∈ s.node.countsFor s.timeoutBuckets signed,
    s.node.validatorSet = s.setAt signed.payload.view ∧
      ∀ c ∈ s.countedIn signed.payload.view, c.stableId = id → c.signer = signed.signer
  | .restore manifest => s.timeoutBuckets ≠ ∅ →
    (s.node.restoreFromSnapshot P s.storage manifest).2.1.validatorSet = s.node.validatorSet
  | _ => True

instance (P : Primitives) (s : TimeoutTeller) : DecidablePred (CountsInTurn P s)
  | .timeoutVote signed _ => inferInstanceAs (Decidable
    (∀ id ∈ s.node.countsFor s.timeoutBuckets signed, _ ∧
      ∀ c ∈ s.countedIn signed.payload.view, _))
  | .restore _ => inferInstanceAs (Decidable (s.timeoutBuckets ≠ ∅ → _ = s.node.validatorSet))
  | .pacemaker _ | .safety .. | .commit _ => inferInstanceAs (Decidable True)

/-- The representation invariant of the timeout buckets. -/
structure Tallied (s : TimeoutTeller) : Prop where
  signers : ∀ v b, s.timeoutBuckets.get? v = some b →
    b.signers = (s.counted v).map CountedVote.signer
  weight : ∀ v b, s.timeoutBuckets.get? v = some b →
    b.signerWeight ≤ s.node.validatorSet.heldBy ((s.counted v).map CountedVote.stableId)
  once : ∀ v, ((s.counted v).map CountedVote.stableId).Nodup

namespace ValidatorSet
variable {vs : ValidatorSet} {ids : List ValidatorId} {id : ValidatorId}

theorem heldBy_cons (hid : id ∉ ids) :
    vs.heldBy (id :: ids) = (vs.weightFor id).getD 0 + vs.heldBy ids := by
  unfold heldBy
  rw [List.dedup_cons_of_notMem hid, List.map_cons, List.sum_cons]

theorem totalWeight_lt (vs : ValidatorSet) : vs.totalWeight < 2 ^ 96 := by
  rw [totalWeight_eq_weight]
  exact vs.weight_lt (Finset.Subset.refl _)

theorem lt_of_quorumWeightThreshold {w : ℕ} (h : vs.quorumWeightThreshold ≤ w) :
    2 * vs.totalWeight < 3 * w := by
  have hlt := vs.totalWeight_lt
  unfold quorumWeightThreshold saturatingMulU128 at h
  split_ifs at h <;> omega

theorem lt_of_honestyWeightThreshold {w : ℕ} (h : vs.honestyWeightThreshold ≤ w) :
    vs.totalWeight < 3 * w := by
  unfold honestyWeightThreshold at h
  split_ifs at h <;> omega

end ValidatorSet

theorem get?_evictTimeoutBuckets {capacity : ℕ} {buckets : Table ℕ TimeoutBucket} {v : ℕ}
    {b : TimeoutBucket}
    (h : (evictTimeoutBucketsToFitOne capacity buckets).get? v = some b) :
    buckets.get? v = some b := by
  unfold evictTimeoutBucketsToFitOne at h
  split_ifs at h with hsize
  · exact h
  · cases hv : buckets.minBy fun view _ => view with
    | none =>
      rw [hv] at h
      exact h
    | some victim =>
      rw [hv] at h
      exact Table.get?_of_erase h

theorem get?_openedBuckets (capacity : ℕ) (buckets : Table ℕ TimeoutBucket) (view : ℕ) :
    (openedBuckets capacity buckets view).get? view = buckets.get? view ∧
      ∀ v b, (openedBuckets capacity buckets view).get? v = some b → buckets.get? v = some b := by
  unfold openedBuckets
  split_ifs with hopen
  · exact ⟨rfl, fun _ _ h => h⟩
  · refine ⟨?_, fun v b h => get?_evictTimeoutBuckets h⟩
    rw [Bool.not_eq_true, Table.containsKey_eq_false_iff] at hopen
    rw [hopen]
    cases hb : (evictTimeoutBucketsToFitOne capacity buckets).get? view with
    | none => rfl
    | some b => exact (hopen.symm.trans (get?_evictTimeoutBuckets hb)).symm

theorem mem_crossing (vs : ValidatorSet) (view before after : ℕ) :
    (∀ v, .timeoutCert v ∉ crossing vs view before after) ∧
      ∀ v, .roundSync v ∈ crossing vs view before after →
        v = view ∧ vs.honestyWeightThreshold ≤ after := by
  unfold crossing
  split_ifs with h
  · refine ⟨by simp, ?_⟩
    intro v hmem
    rw [List.mem_singleton] at hmem
    exact ⟨TimeoutEffect.roundSync.inj hmem, h.2⟩
  · simp

namespace ConsensusNode
variable {n : ConsensusNode} {capacity : ℕ} {buckets : Table ℕ TimeoutBucket}
  {signed : Signed TimeoutVote} {highQcTrusted : Bool} {id : ValidatorId}

theorem countsFor_eq_some (h : n.countsFor buckets signed = some id) :
    n.validatorKeyHistory.validatorFor signed.signer = some id ∧
      n.validatorSet.contains id = true ∧ n.currentView ≤ signed.payload.view ∧
        ∀ b, buckets.get? signed.payload.view = some b → signed.signer ∉ b.signers := by
  obtain ⟨stableId, hid, h⟩ := Option.bind_eq_some_iff.mp h
  by_cases hc : n.validatorSet.contains stableId && n.currentView ≤ signed.payload.view &&
      !(buckets.get? signed.payload.view).any fun b => signed.signer ∈ b.signers
  · rw [if_pos hc] at h
    obtain rfl := Option.some.inj h
    simp only [Bool.and_eq_true, decide_eq_true_eq, Bool.not_eq_true'] at hc
    refine ⟨hid, hc.1.1, hc.1.2, ?_⟩
    intro b hb hmem
    have hnot := hc.2
    rw [hb, Option.any_some, decide_eq_false_iff_not] at hnot
    exact hnot hmem
  · rw [if_neg hc] at h
    cases h

variable (capacity highQcTrusted) in
/-- A vote that is not counted leaves the buckets, and fires no more than a reply to its sender. -/
theorem onTimeoutVote_of_none (h : n.countsFor buckets signed = none) :
    (n.onTimeoutVote capacity buckets signed highQcTrusted).1 = buckets ∧
      ∀ e ∈ (n.onTimeoutVote capacity buckets signed highQcTrusted).2,
        ∃ peer highQc, e = .catchUp peer highQc := by
  unfold onTimeoutVote
  unfold countsFor at h
  cases hid : n.validatorKeyHistory.validatorFor signed.signer with
  | none => simp
  | some stableId =>
    rw [hid] at h
    simp only [Option.bind_eq_bind, Option.bind_some, ite_eq_right_iff, reduceCtorEq,
      imp_false, Bool.and_eq_true, decide_eq_true_eq, Bool.not_eq_true', not_and,
      Bool.not_eq_false] at h
    by_cases hc : n.validatorSet.contains stableId
    · by_cases hv : signed.payload.view < n.currentView
      · simp only [hc, Bool.not_true, Bool.false_eq_true, if_false, hv, if_true, true_and]
        unfold catchUp
        intro e he
        split at he
        · cases he
        · split at he
          · cases he
          · rw [List.mem_singleton] at he
            exact ⟨_, _, he⟩
      · have hcounted := h ⟨hc, Nat.le_of_not_lt hv⟩
        obtain ⟨b, hb, hmem⟩ := (Option.any_eq_true _ _).mp hcounted
        have hopen : openedBuckets capacity buckets signed.payload.view = buckets := by
          unfold openedBuckets
          rw [if_pos ((Table.containsKey_iff _ _).mpr ⟨b, hb⟩)]
        have hsigner :
            signed.signer ∈ ((buckets.get? signed.payload.view).getD .empty).signers := by
          rw [hb]
          exact of_decide_eq_true hmem
        simp [hc, hv, hopen, hsigner]
    · simp [hc]

variable (capacity highQcTrusted) in
/-- A vote that is counted passes all checks. -/
theorem onTimeoutVote_eq (h : n.countsFor buckets signed = some id) :
    n.onTimeoutVote capacity buckets signed highQcTrusted =
      let view := signed.payload.view
      let opened := openedBuckets capacity buckets view
      let bucket := (buckets.get? view).getD .empty
      let added := bucket.add signed highQcTrusted ((n.validatorSet.weightFor id).getD 0)
      let roundSync := crossing n.validatorSet view bucket.signerWeight added.signerWeight
      if added.signerWeight < n.validatorSet.quorumWeightThreshold then
        (opened.insert view added, roundSync)
      else
        (Table.retain (opened.erase view) fun v _ => view < v,
          roundSync ++ added.bestHighQc.toList.map .adopt ++ [.timeoutCert view]) := by
  obtain ⟨hid, hc, hv, hnew⟩ := countsFor_eq_some h
  have hcurrent : ¬ signed.payload.view < n.currentView := Nat.not_lt.mpr hv
  have hsame := (get?_openedBuckets capacity buckets signed.payload.view).1
  have hsigner : signed.signer ∉ ((buckets.get? signed.payload.view).getD .empty).signers := by
    cases hb : buckets.get? signed.payload.view with
    | none => exact List.not_mem_nil
    | some b => exact hnew b hb
  unfold onTimeoutVote
  simp only [hid, hc, hcurrent, hsame, hsigner, Bool.not_true, Bool.false_eq_true, if_false]

variable (capacity highQcTrusted) in
/-- A counted vote is added to the bucket of its view; what is fired is for that view and crosses
its threshold. -/
theorem onTimeoutVote_of_some (h : n.countsFor buckets signed = some id) :
    ∃ added, added = ((buckets.get? signed.payload.view).getD .empty).add signed highQcTrusted
        ((n.validatorSet.weightFor id).getD 0) ∧
      (∀ v b, (n.onTimeoutVote capacity buckets signed highQcTrusted).1.get? v = some b →
        if v = signed.payload.view then b = added else buckets.get? v = some b) ∧
      (∀ v, .timeoutCert v ∈ (n.onTimeoutVote capacity buckets signed highQcTrusted).2 →
        v = signed.payload.view ∧ n.validatorSet.quorumWeightThreshold ≤ added.signerWeight) ∧
      ∀ v, .roundSync v ∈ (n.onTimeoutVote capacity buckets signed highQcTrusted).2 →
        v = signed.payload.view ∧
          n.validatorSet.honestyWeightThreshold ≤ added.signerWeight := by
  obtain ⟨-, hrest⟩ := get?_openedBuckets capacity buckets signed.payload.view
  simp only [onTimeoutVote_eq capacity highQcTrusted h]
  refine ⟨_, rfl, ?_⟩
  generalize TimeoutBucket.add _ _ _ _ = added
  obtain ⟨hcert, hsync⟩ := mem_crossing n.validatorSet signed.payload.view
    ((buckets.get? signed.payload.view).getD .empty).signerWeight added.signerWeight
  by_cases hq : added.signerWeight < n.validatorSet.quorumWeightThreshold
  · simp only [hq, if_true]
    refine ⟨?_, fun v hmem => absurd hmem (hcert v), hsync⟩
    intro v b hb
    rw [Table.get?_insert] at hb
    split_ifs at hb ⊢ with hview
    · exact (Option.some.inj hb).symm
    · exact hrest v b hb
  · simp only [hq, if_false]
    refine ⟨?_, ?_, ?_⟩
    · intro v b hb
      have hb := Table.get?_of_retain hb
      rw [Table.get?_erase] at hb
      split_ifs at hb ⊢ with hview
      exact hrest v b hb
    · intro v hmem
      rw [List.mem_append, List.mem_append] at hmem
      rcases hmem with (hmem | hmem) | hmem
      · exact absurd hmem (hcert v)
      · simp at hmem
      · rw [List.mem_singleton] at hmem
        exact ⟨TimeoutEffect.timeoutCert.inj hmem, Nat.le_of_not_lt hq⟩
    · intro v hmem
      rw [List.mem_append, List.mem_append] at hmem
      rcases hmem with (hmem | hmem) | hmem
      · exact hsync v hmem
      · simp at hmem
      · simp at hmem

end ConsensusNode

theorem stepPacemaker_keeps (n : ConsensusNode) (events : List PacemakerEvent) :
    (events.foldl ConsensusNode.stepPacemaker n).validatorSet = n.validatorSet := by
  induction events generalizing n with
  | nil => rfl
  | cons event events ih => rw [List.foldl_cons, ih]; rfl

/-- What a node counts timeout votes by: the cached set, and the view it is in. -/
def ConsensusNode.counting (n : ConsensusNode) : ValidatorSet × Pacemaker :=
  (n.validatorSet, n.pacemaker)

theorem counting_applyReconfig (n : ConsensusNode) (cmd : ReconfigCommand)
    (newSet : ValidatorSet) : (n.applyReconfig cmd newSet).1.counting = n.counting := by
  unfold applyReconfig
  split
  · rfl
  · split <;> rfl

theorem counting_applyReconfigs (R : ReconfigPrimitives) (minVEffDelay : ℕ)
    (chainId : ChainId) (n : ConsensusNode) (block : Block) :
    (n.applyReconfigs R minVEffDelay chainId block).1.counting = n.counting := by
  unfold ConsensusNode.applyReconfigs
  apply foldl_keeps (f := fun progress : ConsensusNode × Bool => progress.1.counting)
    (a := (n, false))
  intro progress bytes
  unfold applyReconfigPayload
  split
  · rfl
  · exact counting_applyReconfig _ _ _

/-- A commit leaves the cached set and the view as they are. -/
theorem counting_applyCommittedHistories {R : HistoryPrimitives} {chainId : ChainId}
    {minVEffDelay : ℕ} {storage storage' : Storage} {n n' : ConsensusNode} {block : Block}
    (h : n.applyCommittedHistories R chainId minVEffDelay storage block = some (storage', n')) :
    n'.counting = n.counting := by
  obtain ⟨rotated, -, h⟩ := Option.bind_eq_some_iff.mp h
  obtain ⟨-, rfl⟩ := Prod.mk.inj (Option.some.inj h)
  exact counting_applyReconfigs R.toReconfigPrimitives minVEffDelay chainId n block

/-- The bucket of a view holds the votes that are listed for it. -/
theorem Tallied.bucketOr {s : TimeoutTeller} (hs : Tallied s) (v : ℕ) :
    ((s.timeoutBuckets.get? v).getD .empty).signers =
        (s.countedIn v).map CountedVote.signer ∧
      ((s.timeoutBuckets.get? v).getD .empty).signerWeight ≤
        s.node.validatorSet.heldBy ((s.countedIn v).map CountedVote.stableId) := by
  unfold TimeoutTeller.countedIn Table.containsKey
  cases hb : s.timeoutBuckets.get? v with
  | none => exact ⟨rfl, Nat.zero_le _⟩
  | some b => exact ⟨hs.signers v b hb, hs.weight v b hb⟩

theorem Tallied.once_countedIn {s : TimeoutTeller} (hs : Tallied s) (v : ℕ) :
    ((s.countedIn v).map CountedVote.stableId).Nodup := by
  unfold TimeoutTeller.countedIn
  split_ifs
  · exact hs.once v
  · exact List.nodup_nil

namespace TimeoutTeller
variable {P : Primitives} {R : HistoryPrimitives} {chainId : ChainId} {minVEffDelay capacity : ℕ}
  {s : TimeoutTeller}

theorem countedIn_cons_ids (s : TimeoutTeller) (v : ℕ) (id : ValidatorId) (signer : NodeId) :
    ((⟨id, signer⟩ :: s.countedIn v : List CountedVote).map CountedVote.stableId) =
      id :: (s.countedIn v).map CountedVote.stableId := rfl

section
variable {signed : Signed TimeoutVote} {highQcTrusted : Bool} {id : ValidatorId}

/-- A validator that votes under its only key has no vote in the bucket yet. -/
theorem unheard_of_counts (hs : Tallied s) (hc : s.node.countsFor s.timeoutBuckets signed = some id)
    (hkeys : ∀ c ∈ s.countedIn signed.payload.view, c.stableId = id → c.signer = signed.signer) :
    id ∉ (s.countedIn signed.payload.view).map CountedVote.stableId := by
  intro hmem
  obtain ⟨c, hcmem, rfl⟩ := List.mem_map.mp hmem
  have hsame : signed.signer ∈ ((s.timeoutBuckets.get? signed.payload.view).getD
      .empty).signers := by
    rw [(hs.bucketOr signed.payload.view).1, ← hkeys c hcmem rfl]
    exact List.mem_map_of_mem hcmem
  cases hb : s.timeoutBuckets.get? signed.payload.view with
  | none =>
    rw [hb] at hsame
    exact List.not_mem_nil hsame
  | some b =>
    rw [hb] at hsame
    exact (countsFor_eq_some hc).2.2.2 b hb hsame

variable (highQcTrusted) in
/-- The vote adds no more than the weight of its validator. -/
theorem heldBy_added (hs : Tallied s)
    (hnew : id ∉ (s.countedIn signed.payload.view).map CountedVote.stableId) :
    (((s.timeoutBuckets.get? signed.payload.view).getD .empty).add signed highQcTrusted
      ((s.node.validatorSet.weightFor id).getD 0)).signerWeight ≤
        s.node.validatorSet.heldBy
          (id :: (s.countedIn signed.payload.view).map CountedVote.stableId) := by
  have hweight := (hs.bucketOr signed.payload.view).2
  rw [ValidatorSet.heldBy_cons hnew]
  calc (((s.timeoutBuckets.get? signed.payload.view).getD .empty).add signed highQcTrusted
          ((s.node.validatorSet.weightFor id).getD 0)).signerWeight
      ≤ ((s.timeoutBuckets.get? signed.payload.view).getD .empty).signerWeight +
          (s.node.validatorSet.weightFor id).getD 0 := Nat.min_le_left _ _
    _ ≤ _ := by omega

/-- A vote that is not counted changes no tally and fires nothing. -/
theorem tallied_uncounted (hs : Tallied s)
    (hc : s.node.countsFor s.timeoutBuckets signed = none) :
    Tallied (s.step P R chainId minVEffDelay capacity (.timeoutVote signed highQcTrusted)) ∧
      WeightBacked P R chainId minVEffDelay capacity s (.timeoutVote signed highQcTrusted) := by
  have hset : (s.step P R chainId minVEffDelay capacity
      (.timeoutVote signed highQcTrusted)).node.validatorSet = s.node.validatorSet :=
    stepPacemaker_keeps _ _
  obtain ⟨hbuckets, heffects⟩ := onTimeoutVote_of_none capacity highQcTrusted hc
  have hcounted : (s.step P R chainId minVEffDelay capacity
      (.timeoutVote signed highQcTrusted)).counted = s.counted := by
    simp only [step, noteVote, hc]
  refine ⟨⟨?_, ?_, ?_⟩, ⟨?_, ?_, ?_⟩⟩
  · rw [hcounted]
    exact fun v b hb => hs.signers v b (hbuckets ▸ hb)
  · rw [hcounted, hset]
    exact fun v b hb => hs.weight v b (hbuckets ▸ hb)
  · rw [hcounted]
    exact hs.once
  · intro v hmem
    obtain ⟨peer, qc, he⟩ := heffects _ hmem
    cases he
  · intro v hmem
    obtain ⟨peer, qc, he⟩ := heffects _ hmem
    cases he
  · rw [hcounted]
    exact hs.once

/-- A vote that comes under the only key of its validator keeps the tallies, and what it fires
is backed in the cached set. -/
theorem tallied_timeoutVote (hs : Tallied s)
    (hq : CountsInTurn P s (.timeoutVote signed highQcTrusted)) :
    Tallied (s.step P R chainId minVEffDelay capacity (.timeoutVote signed highQcTrusted)) ∧
      WeightBacked P R chainId minVEffDelay capacity s (.timeoutVote signed highQcTrusted) := by
  cases hc : s.node.countsFor s.timeoutBuckets signed with
  | none => exact tallied_uncounted hs hc
  | some id =>
    have hset : (s.step P R chainId minVEffDelay capacity
        (.timeoutVote signed highQcTrusted)).node.validatorSet = s.node.validatorSet :=
      stepPacemaker_keeps _ _
    obtain ⟨hcached, hkeys⟩ := hq id hc
    have hnew := unheard_of_counts hs hc hkeys
    obtain ⟨added, hadded, hbuckets, hcert, hsync⟩ :=
      onTimeoutVote_of_some capacity highQcTrusted hc
    have hheld := heldBy_added highQcTrusted hs hnew
    rw [← hadded] at hheld
    have hcounted : (s.step P R chainId minVEffDelay capacity
        (.timeoutVote signed highQcTrusted)).counted =
        Function.update s.counted signed.payload.view
          (⟨id, signed.signer⟩ :: s.countedIn signed.payload.view) := by
      simp only [step, noteVote, hc]
    have honce : ∀ v, ((Function.update s.counted signed.payload.view
        (⟨id, signed.signer⟩ :: s.countedIn signed.payload.view) v).map
          CountedVote.stableId).Nodup := by
      intro v
      by_cases hv : v = signed.payload.view
      · rw [hv, Function.update_self, countedIn_cons_ids]
        exact List.nodup_cons.mpr ⟨hnew, hs.once_countedIn signed.payload.view⟩
      · rw [Function.update_of_ne hv]
        exact hs.once v
    refine ⟨⟨?_, ?_, ?_⟩, ⟨?_, ?_, ?_⟩⟩
    · intro v b hb
      have hb := hbuckets v b hb
      rw [hcounted]
      by_cases hv : v = signed.payload.view
      · rw [if_pos hv] at hb
        rw [hv, Function.update_self, hb, hadded, List.map_cons,
          ← (hs.bucketOr signed.payload.view).1]
        rfl
      · rw [if_neg hv] at hb
        rw [Function.update_of_ne hv]
        exact hs.signers v b hb
    · intro v b hb
      have hb := hbuckets v b hb
      rw [hcounted, hset]
      by_cases hv : v = signed.payload.view
      · rw [if_pos hv] at hb
        rw [hv, Function.update_self, hb, countedIn_cons_ids]
        exact hheld
      · rw [if_neg hv] at hb
        rw [Function.update_of_ne hv]
        exact hs.weight v b hb
    · rw [hcounted]
      exact honce
    · intro v hmem
      obtain ⟨rfl, hquorum⟩ := hcert v hmem
      rw [hcounted, Function.update_self, countedIn_cons_ids, ← hcached]
      exact ValidatorSet.lt_of_quorumWeightThreshold (hquorum.trans hheld)
    · intro v hmem
      obtain ⟨rfl, hhonest⟩ := hsync v hmem
      rw [hcounted, Function.update_self, countedIn_cons_ids, ← hcached]
      have hle := hhonest.trans hheld
      exact ⟨hle, ValidatorSet.lt_of_honestyWeightThreshold hle⟩
    · rw [hcounted]
      exact honce

end

theorem tallied_step {input : TellerInput} (hs : Tallied s) (hq : CountsInTurn P s input) :
    Tallied (s.step P R chainId minVEffDelay capacity input) ∧
      WeightBacked P R chainId minVEffDelay capacity s input := by
  have hquiet : ∀ {s' : TimeoutTeller},
      s'.timeoutBuckets = s.timeoutBuckets → s'.counted = s.counted →
      (s.timeoutBuckets = ∅ ∨ s'.node.validatorSet = s.node.validatorSet) → Tallied s' := by
    intro s' hbuckets hcounted hset
    refine ⟨?_, ?_, ?_⟩
    · rw [hbuckets, hcounted]
      exact hs.signers
    · rw [hbuckets, hcounted]
      rcases hset with hempty | hset
      · intro v b hb
        rw [hempty, Table.get?_empty] at hb
        cases hb
      · rw [hset]
        exact hs.weight
    · rw [hcounted]
      exact hs.once
  cases input with
  | timeoutVote signed highQcTrusted => exact tallied_timeoutVote hs hq
  | pacemaker event =>
    exact ⟨hquiet rfl rfl (.inr rfl), by simp [effects], by simp [effects], hs.once⟩
  | safety order event =>
    exact ⟨hquiet rfl rfl (.inr rfl), by simp [effects], by simp [effects], hs.once⟩
  | commit block =>
    refine ⟨?_, by simp [effects], by simp [effects], ?_⟩
    · simp only [step]
      split
      · exact hs
      · exact hquiet rfl rfl (.inr (congrArg Prod.fst (counting_applyCommittedHistories ‹_›)))
    · simp only [step]
      split <;> exact hs.once
  | restore manifest =>
    refine ⟨hquiet rfl rfl ?_, by simp [effects], by simp [effects], hs.once⟩
    by_cases hempty : s.timeoutBuckets = ∅
    · exact .inl hempty
    · exact .inr (hq hempty)

/-- In a run in which no validator has two keys in one bucket and the cached set is the set of
the votes' views, whatever is fired is backed. -/
theorem weight_backed (P : Primitives) (R : HistoryPrimitives) (chainId : ChainId)
    (minVEffDelay capacity : ℕ) (storage : Storage) (n : ConsensusNode)
    (inputs : List TellerInput)
    (h : Along (step P R chainId minVEffDelay capacity) (CountsInTurn P) (start storage n) inputs) :
    Along (step P R chainId minVEffDelay capacity)
      (WeightBacked P R chainId minVEffDelay capacity) (start storage n) inputs := by
  apply h.imp_of_invariant (I := Tallied) fun s input hq hs => tallied_step hs hq
  exact ⟨by simp [start], by simp [start], fun _ => List.nodup_nil⟩

end TimeoutTeller

namespace Sample

/-- A timeout vote for view 20 under the key. -/
def timedOut (key : NodeId) : TellerInput := .timeoutVote ⟨⟨20, none⟩, key, 0⟩ true

def tell : TimeoutTeller → TellerInput → TimeoutTeller :=
  TimeoutTeller.step timed allChanges chainId config.minVEffDelay 8

/-- Three validators time out, each under its only key. -/
def threeTimeouts : List TellerInput := [.pacemaker (.onQc 0), timedOut 1, timedOut 2, timedOut 3]

theorem threeTimeouts_backed : ∃ n ∈ recover timed config .empty,
    .timeoutCert 20 ∈ (run tell (.start .empty n) (threeTimeouts.take 3)).effects 8 (timedOut 3) ∧
      Along tell (WeightBacked timed allChanges chainId config.minVEffDelay 8) (.start .empty n)
        threeTimeouts := by
  obtain ⟨n, hn, hfired, h⟩ : ∃ n ∈ recover timed config .empty,
      .timeoutCert 20 ∈
          (run tell (.start .empty n) (threeTimeouts.take 3)).effects 8 (timedOut 3) ∧
        Along tell (CountsInTurn timed) (.start .empty n) threeTimeouts := by decide +kernel
  exact ⟨n, hn, hfired, TimeoutTeller.weight_backed timed allChanges chainId config.minVEffDelay 8
    .empty n threeTimeouts h⟩

/-- Validator 4 times out under its old key, then its rotation to key 40 is committed, and it
times out under the new one, which alone is active in view 20 by now. -/
def twoKeys : List TellerInput :=
  [.pacemaker (.onQc 0), timedOut 4, .commit rotating, timedOut 40]

/-- The weight of validator 4 alone fires a round sync. -/
theorem twoKeys_not_backed : ∃ n ∈ recover timed config .empty,
    ¬ Along tell (WeightBacked timed allChanges chainId config.minVEffDelay 8) (.start .empty n)
      twoKeys := by
  obtain ⟨n, hn, hfired, hheld⟩ : ∃ n ∈ recover timed config .empty,
      .roundSync 20 ∈ (run tell (.start .empty n) (twoKeys.take 3)).effects 8 (timedOut 40) ∧
        ((run tell (.start .empty n) (twoKeys.take 3)).setAt 20).heldBy
            (((run tell (.start .empty n) twoKeys).counted 20).map CountedVote.stableId) <
          ((run tell (.start .empty n) (twoKeys.take 3)).setAt 20).honestyWeightThreshold := by
    decide +kernel
  refine ⟨n, hn, ?_⟩
  intro h
  have hsplit : Along tell (WeightBacked timed allChanges chainId config.minVEffDelay 8)
      (.start .empty n) (twoKeys.take 3 ++ [timedOut 40]) := h
  have hle := (hsplit.append.2.1.roundSync 20 hfired).1
  exact absurd hle (Nat.not_le_of_lt hheld)

end Sample

end Boule
