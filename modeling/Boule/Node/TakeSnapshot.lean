import Boule.Node.StampedChain
import Boule.SnapshotSync

/-! The snapshot that a node takes while it commits a block, and when a joining node accepts its
manifest. -/
namespace Boule
open ConsensusNode

/-! ### Certificates of recent blocks -/

def recentQcCacheCapacity : ℕ := 32

structure RecentQcCache where
  map : Table BlockHash QuorumCertificate
  order : List BlockHash
  deriving DecidableEq

namespace RecentQcCache

/-- A new hash goes to the back, and the oldest ones over the capacity go out. -/
def insert (c : RecentQcCache) (hash : BlockHash) (qc : QuorumCertificate) (capacity : ℕ) :
    RecentQcCache :=
  let map := c.map.insert hash qc
  if c.map.containsKey hash then ⟨map, c.order⟩
  else
    let order := c.order ++ [hash]
    let excess := order.length - capacity
    ⟨(order.take excess).foldl (fun t old => t.erase old) map, order.drop excess⟩

def get? (c : RecentQcCache) (hash : BlockHash) : Option QuorumCertificate := c.map.get? hash

/-- The cache after these certificates, each under the hash of its block: high certificates that
were persisted and the certificates of restored manifests. -/
def recorded (qcs : List QuorumCertificate) : RecentQcCache :=
  qcs.foldl (fun c qc => c.insert qc.blockHash qc recentQcCacheCapacity) ⟨∅, []⟩

theorem get?_insert {c : RecentQcCache} {hash k : BlockHash} {qc found : QuorumCertificate}
    {capacity : ℕ} (h : (c.insert hash qc capacity).get? k = some found) :
    (k = hash ∧ found = qc) ∨ c.get? k = some found := by
  have hin : Table.get? (c.map.insert hash qc) k = some found := by
    unfold insert get? at h
    simp only at h
    split_ifs at h
    · exact h
    · exact Table.get?_of_foldl_erase h
  rw [Table.get?_insert] at hin
  split_ifs at hin with hk
  · exact .inl ⟨hk, (Option.some.inj hin).symm⟩
  · exact .inr hin

/-- Every certificate is under the hash of its block. -/
theorem blockHash_of_recorded {qcs : List QuorumCertificate} {hash : BlockHash}
    {qc : QuorumCertificate} (h : (recorded qcs).get? hash = some qc) : qc.blockHash = hash := by
  unfold recorded at h
  induction qcs using List.reverseRecOn with
  | nil => cases h
  | append_singleton qcs last ih =>
    rw [List.foldl_append, List.foldl_cons, List.foldl_nil] at h
    rcases get?_insert h with ⟨rfl, rfl⟩ | h
    · rfl
    · exact ih h

end RecentQcCache

/-! ### Chunks -/

/-- Windows of `chunkSize` bytes, the last one shorter. -/
def byteWindows (payload : Bytes) (chunkSize : ℕ) : List Bytes :=
  (List.range ((payload.length + chunkSize - 1) / chunkSize)).map fun i =>
    (payload.drop (i * chunkSize)).take chunkSize

/-- The chunks with their hashes; a chunk size of zero panics, and an empty payload is one empty
chunk. -/
def chunkSnapshot (sha256 : Bytes → Bytes32) (payload : Bytes) (chunkSize : ℕ) :
    Option (List (Bytes × Bytes32)) :=
  if chunkSize = 0 then none
  else if payload.isEmpty then some [([], sha256 [])]
  else some ((byteWindows payload chunkSize).map fun window => (window, sha256 window))

/-- The hash of a chunk is the one computed of it. -/
theorem hash_of_chunkSnapshot {sha256 : Bytes → Bytes32} {payload : Bytes} {chunkSize : ℕ}
    {chunks : List (Bytes × Bytes32)} (h : chunkSnapshot sha256 payload chunkSize = some chunks)
    {c : Bytes × Bytes32} (hc : c ∈ chunks) : c.2 = sha256 c.1 := by
  unfold chunkSnapshot at h
  split_ifs at h
  · rw [← Option.some.inj h] at hc
    rw [List.mem_singleton.mp hc]
  · rw [← Option.some.inj h] at hc
    obtain ⟨window, -, rfl⟩ := List.mem_map.mp hc
    rfl

theorem flatten_windows (payload : Bytes) (chunkSize n : ℕ) :
    ((List.range n).map fun i => (payload.drop (i * chunkSize)).take chunkSize).flatten =
      payload.take (n * chunkSize) := by
  induction n with
  | zero => simp
  | succ n ih =>
    rw [List.range_succ, List.map_append, List.flatten_append, ih, List.map_singleton,
      List.flatten_singleton, ← List.take_add, Nat.succ_mul]

/-- The chunks put together are the payload. -/
theorem assemble_chunkSnapshot {sha256 : Bytes → Bytes32} {payload : Bytes} {chunkSize : ℕ}
    {chunks : List (Bytes × Bytes32)} (h : chunkSnapshot sha256 payload chunkSize = some chunks) :
    (chunks.map Prod.fst).flatten = payload := by
  unfold chunkSnapshot at h
  split_ifs at h with hsize hempty
  · rw [← Option.some.inj h, List.isEmpty_iff.mp hempty]
    rfl
  · have hfst : ((byteWindows payload chunkSize).map fun window =>
        (window, sha256 window)).map Prod.fst = byteWindows payload chunkSize := by
      rw [List.map_map]
      exact List.map_id _
    have hcover : payload.length ≤
        (payload.length + chunkSize - 1) / chunkSize * chunkSize := by
      have hdiv := Nat.div_add_mod (payload.length + chunkSize - 1) chunkSize
      have hmod := Nat.mod_lt (payload.length + chunkSize - 1) (Nat.pos_of_ne_zero hsize)
      rw [Nat.mul_comm]
      omega
    rw [← Option.some.inj h, hfst, byteWindows, flatten_windows,
      List.take_of_length_le hcover]

/-! ### The store -/

structure SnapshotStore where
  manifests : Table ℕ SnapshotManifest
  chunks : Table (ℕ × ℕ) Bytes
  latest : Option ℕ
  deriving DecidableEq

inductive SnapshotSaveError where
  | chunkCount (got expected : ℕ)
  | chunkHash (chunkIdx : ℕ)
  deriving DecidableEq

namespace SnapshotStore

/-- A chunk without a hash in the manifest would panic; a built manifest has one for each. -/
def save (sha256 : Bytes → Bytes32) (s : SnapshotStore) (manifest : SnapshotManifest)
    (chunks : List Bytes) : Except SnapshotSaveError SnapshotStore := do
  require (chunks.length = manifest.chunkCount) (.chunkCount chunks.length manifest.chunkCount)
  chunks.zipIdx.forM fun c =>
    require (manifest.chunkHashes[c.2]? = some (sha256 c.1)) (.chunkHash c.2)
  return {
    manifests := s.manifests.insert manifest.height manifest
    chunks := chunks.zipIdx.foldl (fun t c => t.insert (manifest.height, c.2) c.1) s.chunks
    latest := some manifest.height }

/-- Chunks with the hashes of the manifest are taken. -/
theorem save_of_hashes {sha256 : Bytes → Bytes32} {manifest : SnapshotManifest}
    {chunks : List Bytes} (hcount : chunks.length = manifest.chunkCount)
    (hhashes : ∀ (i : ℕ) c, chunks[i]? = some c → manifest.chunkHashes[i]? = some (sha256 c))
    (s : SnapshotStore) : ∃ s', s.save sha256 manifest chunks = .ok s' := by
  refine ⟨_, bind_eq_ok.mpr ⟨(), require_eq_ok.mpr (decide_eq_true hcount),
    bind_eq_ok.mpr ⟨(), forM_eq_ok.mpr ?_, rfl⟩⟩⟩
  intro c hc
  have hchunk := List.mem_zipIdx_iff_getElem?.mp hc
  exact require_eq_ok.mpr (decide_eq_true (hhashes c.2 c.1 hchunk))

def loadManifest (s : SnapshotStore) (height : ℕ) : Option SnapshotManifest :=
  s.manifests.get? height

def loadChunk (s : SnapshotStore) (height chunkIdx : ℕ) : Option Bytes :=
  s.chunks.get? (height, chunkIdx)

def listHeights (s : SnapshotStore) : List ℕ :=
  (s.manifests.toList.map Prod.fst).insertionSort (· ≤ ·)

def delete (s : SnapshotStore) (height : ℕ) : SnapshotStore where
  manifests := s.manifests.erase height
  chunks := s.chunks.retain fun k _ => k.1 ≠ height
  latest := s.listHeights.reverse.find? (· ≠ height)

/-- The oldest snapshots go until `retainN` are left; zero keeps all. -/
def pruneOlderThan (s : SnapshotStore) (retainN : ℕ) : SnapshotStore :=
  if retainN = 0 then s
  else (s.listHeights.take (s.listHeights.length - retainN)).foldl delete s

end SnapshotStore

/-! ### Taking a snapshot -/

/-- `SnapshotManifest::build`; a chunk count beyond 32 bits panics. -/
def SnapshotManifest.build (P : Primitives) (block : Block) (validatorSet : ValidatorSet)
    (chunkSize : ℕ) (chunkHashes : List Bytes32) (commitQc : QuorumCertificate)
    (createdUnixSecs : ℕ) (histories : Histories) : Option SnapshotManifest :=
  if chunkHashes.length < 2 ^ 32 then
    some {
      version := snapshotFormatVersion
      height := block.header.height
      view := block.header.view
      blockHash := block.hash P
      stateCommitment := block.header.stateCommitment
      validatorSet := validatorSet.members
      chunkSize := chunkSize
      chunkCount := chunkHashes.length
      chunkHashes := chunkHashes
      commitQc := commitQc
      block := block
      createdUnixSecs := createdUnixSecs
      validatorHistory := histories.set.toPersisted
      validatorKeyHistory := histories.key.toPersisted
      blsKeyHistory := histories.bls.map BlsKeyHistory.toPersisted
      operatorKeyHistory := histories.operator.map OperatorKeyHistory.toPersisted }
  else none

inductive SnapshotOutcome where
  | skipped
  | failed (e : SnapshotSaveError)
  | saved (manifest : SnapshotManifest) (chunks : List Bytes) (store : SnapshotStore)
  deriving DecidableEq

/-- The manifest and the chunks of a snapshot that was saved. -/
def SnapshotOutcome.saved? : SnapshotOutcome → Option (SnapshotManifest × List Bytes)
  | .saved manifest chunks _ => some (manifest, chunks)
  | _ => none

theorem SnapshotOutcome.saved?_eq_some {o : SnapshotOutcome} {m : SnapshotManifest}
    {chunks : List Bytes} (h : o.saved? = some (m, chunks)) :
    ∃ store, o = .saved m chunks store := by
  cases o with
  | saved m' chunks' store =>
    obtain ⟨rfl, rfl⟩ := Prod.mk.inj (Option.some.inj h)
    exact ⟨store, rfl⟩
  | skipped => cases h
  | failed e => cases h

/-- What a snapshot is made of, apart from the node and the block: the certificates, the state of
the application, the clock and the store. -/
structure SnapshotSources where
  policy : SnapshotPolicy
  recentQcs : RecentQcCache
  appSnapshot : Bytes
  unixSecs : ℕ
  store : SnapshotStore

section
variable (P : Primitives) (sha256 : Bytes → Bytes32)

/-- `none` where the source panics. -/
def ConsensusNode.tryTakeSnapshot (n : ConsensusNode) (src : SnapshotSources) (block : Block) :
    Option SnapshotOutcome :=
  match src.recentQcs.get? (block.hash P) with
  | none => some .skipped
  | some commitQc => do
    let chunks ← chunkSnapshot sha256 src.appSnapshot src.policy.chunkSizeBytes
    let manifest ← SnapshotManifest.build P block (n.validatorHistory.setAt block.header.view)
      src.policy.chunkSizeBytes (chunks.map Prod.snd) commitQc src.unixSecs n.histories
    match src.store.save sha256 manifest (chunks.map Prod.fst) with
    | .error e => some (.failed e)
    | .ok store =>
      some (.saved manifest (chunks.map Prod.fst)
        (store.pruneOlderThan src.policy.retentionCount))

/-- The part of `apply_commit` that takes the snapshot: after the batch, before the commands of the
block. -/
def RunningNode.snapshotAtCommit (cfg : NodeConfig) (r : RunningNode) (storage : Storage)
    (src : SnapshotSources) (block : Block) : Option SnapshotOutcome := do
  let (_, n) ← r.node.commitBatch P cfg storage block
  if src.policy.shouldSnapshotAt block.header.height then n.tryTakeSnapshot P sha256 src block
  else some .skipped

end

/-- A set survives the loss of its weights when all of them are one. -/
theorem ValidatorSet.new_members_iff (vs : ValidatorSet) :
    ValidatorSet.new vs.members = .ok vs ↔ ∀ w ∈ vs.weights, w = 1 := by
  have hsorted : ValidatorSet.sortEntries (vs.members.map fun m => (m, 1)) =
      vs.members.map fun m => (m, 1) := by
    apply ValidatorSet.sortEntries_of_pairwise
    exact List.pairwise_map.mpr vs.sorted
  have hz : ∀ e ∈ vs.members.map fun m => ((m, 1) : ValidatorId × UInt64), e.2 ≠ 0 := by
    intro e he
    obtain ⟨m, -, rfl⟩ := List.mem_map.mp he
    exact (by decide : (1 : UInt64) ≠ 0)
  have hl : (vs.members.map fun m => ((m, 1) : ValidatorId × UInt64)).length < 2 ^ 32 := by
    rw [List.length_map]
    exact vs.length_lt
  have hfst : (vs.members.map fun m => ((m, 1) : ValidatorId × UInt64)).map Prod.fst =
      vs.members := by
    rw [List.map_map]
    exact List.map_id _
  have hsnd : (vs.members.map fun m => ((m, 1) : ValidatorId × UInt64)).map Prod.snd =
      List.replicate vs.weights.length 1 := by
    rw [List.map_map, vs.weights_length]
    exact List.map_const'
  unfold ValidatorSet.new ValidatorSet.withWeights
  rw [dif_pos hz, dif_pos hl]
  simp only [hsorted, hfst, hsnd, Except.ok.injEq]
  constructor
  · intro h w hw
    have hweights := congrArg ValidatorSet.weights h
    rw [← hweights] at hw
    exact List.eq_of_mem_replicate hw
  · intro h
    have hweights : vs.weights = List.replicate vs.weights.length 1 :=
      List.eq_replicate_iff.mpr ⟨rfl, h⟩
    obtain ⟨members, weights⟩ := vs
    exact ValidatorSet.mk.injEq .. |>.mpr ⟨rfl, hweights.symm⟩

section
variable {P : Primitives} {sha256 : Bytes → Bytes32} {n : ConsensusNode} {src : SnapshotSources}
  {block : Block} {m : SnapshotManifest} {chunks : List Bytes} {store : SnapshotStore}

/-- A built manifest has the hashes of the chunks it is built for. -/
theorem hashes_of_built {payload : Bytes} {chunkSize unixSecs : ℕ}
    {pieces : List (Bytes × Bytes32)} {set : ValidatorSet} {qc : QuorumCertificate}
    {histories : Histories} (hpieces : chunkSnapshot sha256 payload chunkSize = some pieces)
    (hbuilt : SnapshotManifest.build P block set chunkSize (pieces.map Prod.snd) qc unixSecs
      histories = some m) :
    (pieces.map Prod.fst).length = m.chunkCount ∧
      ∀ (i : ℕ) c, (pieces.map Prod.fst)[i]? = some c → m.chunkHashes[i]? = some (sha256 c) := by
  unfold SnapshotManifest.build at hbuilt
  split_ifs at hbuilt
  rw [← Option.some.inj hbuilt]
  refine ⟨by simp, ?_⟩
  intro i c hc
  rw [List.getElem?_map] at hc
  obtain ⟨piece, hpiece, rfl⟩ := Option.map_eq_some_iff.mp hc
  have hhash := hash_of_chunkSnapshot hpieces (List.mem_of_getElem? hpiece)
  simp only [List.getElem?_map, hpiece, Option.map_some, hhash]

/-- A snapshot is skipped without a certificate, and what is built from one is saved: the store
never refuses what the node has made. -/
theorem tryTakeSnapshot_cases {outcome : SnapshotOutcome}
    (h : n.tryTakeSnapshot P sha256 src block = some outcome) :
    outcome = .skipped ∨
      ∃ commitQc pieces manifest store, src.recentQcs.get? (block.hash P) = some commitQc ∧
        chunkSnapshot sha256 src.appSnapshot src.policy.chunkSizeBytes = some pieces ∧
        SnapshotManifest.build P block (n.validatorHistory.setAt block.header.view)
          src.policy.chunkSizeBytes (pieces.map Prod.snd) commitQc src.unixSecs n.histories =
            some manifest ∧
        outcome = .saved manifest (pieces.map Prod.fst) store := by
  unfold tryTakeSnapshot at h
  cases hqc : src.recentQcs.get? (block.hash P) with
  | none =>
    rw [hqc] at h
    exact .inl (Option.some.inj h).symm
  | some commitQc =>
    simp only [hqc, Option.bind_eq_bind] at h
    obtain ⟨pieces, hpieces, h⟩ := Option.bind_eq_some_iff.mp h
    obtain ⟨manifest, hbuilt, h⟩ := Option.bind_eq_some_iff.mp h
    obtain ⟨hcount, hhashes⟩ := hashes_of_built hpieces hbuilt
    obtain ⟨saved, hsave⟩ := SnapshotStore.save_of_hashes hcount hhashes src.store
    simp only [hsave] at h
    exact .inr ⟨commitQc, pieces, manifest, _, rfl, hpieces, hbuilt, (Option.some.inj h).symm⟩

theorem taken_of_saved (h : n.tryTakeSnapshot P sha256 src block = some (.saved m chunks store)) :
    ∃ commitQc pieces, src.recentQcs.get? (block.hash P) = some commitQc ∧
      chunkSnapshot sha256 src.appSnapshot src.policy.chunkSizeBytes = some pieces ∧
      SnapshotManifest.build P block (n.validatorHistory.setAt block.header.view)
        src.policy.chunkSizeBytes (pieces.map Prod.snd) commitQc src.unixSecs n.histories =
          some m ∧
      chunks = pieces.map Prod.fst := by
  rcases tryTakeSnapshot_cases h with
    hskipped | ⟨commitQc, pieces, manifest, saved, hqc, hpieces, hbuilt, hsaved⟩
  · cases hskipped
  · obtain ⟨rfl, rfl, -⟩ := SnapshotOutcome.saved.inj hsaved
    exact ⟨commitQc, pieces, hqc, hpieces, hbuilt, rfl⟩

/-- Every chunk that was saved has the hash that its manifest names. -/
theorem verifyChunk_of_saved
    (h : n.tryTakeSnapshot P sha256 src block = some (.saved m chunks store)) {i : ℕ} {c : Bytes}
    (hc : chunks[i]? = some c) : SnapshotManifest.verifyChunk sha256 m i c = .ok () := by
  obtain ⟨commitQc, pieces, -, hpieces, hbuilt, rfl⟩ := taken_of_saved h
  exact SnapshotManifest.verifyChunk_eq_ok.mpr ((hashes_of_built hpieces hbuilt).2 i c hc)

/-- What `verify` has left to check of a manifest that a node has built. -/
theorem verify_saved_iff {R : HistoryPrimitives} {qcs : List QuorumCertificate}
    (hcache : src.recentQcs = .recorded qcs)
    (h : n.tryTakeSnapshot P sha256 src block = some (.saved m chunks store)) :
    m.verify P R (n.validatorHistory.setAt block.header.view) = .ok () ↔
      (∀ w ∈ (n.validatorHistory.setAt block.header.view).weights, w = 1) ∧
      (∀ qc ∈ src.recentQcs.get? (block.hash P),
        qc.isWellFormed (n.validatorHistory.setAt block.header.view) = true ∧
        qc.hasQuorum (n.validatorHistory.setAt block.header.view) = true) ∧
      ∃ rebuilt, m.rebuiltHistories = some rebuilt ∧
        validatorHistoryCommitmentV2 R rebuilt = block.header.validatorHistoryCommitment := by
  obtain ⟨commitQc, pieces, hqc, hpieces, hbuilt, rfl⟩ := taken_of_saved h
  have hsize : src.policy.chunkSizeBytes ≠ 0 := by
    intro hzero
    unfold chunkSnapshot at hpieces
    rw [if_pos hzero] at hpieces
    cases hpieces
  have hhash : commitQc.blockHash = block.hash P := by
    rw [hcache] at hqc
    exact RecentQcCache.blockHash_of_recorded hqc
  unfold SnapshotManifest.build at hbuilt
  split_ifs at hbuilt
  have hm := Option.some.inj hbuilt
  rw [SnapshotManifest.verify_eq_ok, hqc, ← ValidatorSet.new_members_iff]
  constructor
  · intro ha
    rw [← hm] at ha ⊢
    refine ⟨ha.validatorSet, ?_, ha.histories⟩
    intro qc hsome
    rw [← Option.some.inj hsome]
    exact ⟨ha.wellFormed, ha.quorum⟩
  · rintro ⟨hset, hcert, hhistories⟩
    obtain ⟨hwf, hquorum⟩ := hcert commitQc rfl
    rw [← hm] at hhistories ⊢
    exact ⟨rfl, hset, hwf, hquorum, hhash, rfl, hsize, rfl, rfl, rfl, rfl, hhistories⟩

end

/-! ### Reading the histories back -/

/-- Histories that a joining node can decode: the keys of validators are apart, and none is left
without a BLS key. -/
structure Histories.Readable (h : Histories) : Prop where
  apart : h.key.Apart
  kept : ∀ bls ∈ h.bls, ∀ id, bls.byStableId.get? id ≠ some []

/-- Whether histories can be decoded can be read off the listed entries. -/
theorem Histories.readable_of_lists {h : Histories}
    (howned : ∀ p ∈ h.key.byStableId.toList, ∀ e ∈ p.2,
      h.key.pubkeyToStableId.get? e.key = some p.1)
    (hkept : ∀ bls ∈ h.bls, ∀ p ∈ bls.byStableId.toList, p.2 ≠ []) : h.Readable where
  apart := by
    intro id id' entries entries' key he he' hkey hkey'
    obtain ⟨e, hmem, rfl⟩ := List.mem_map.mp hkey
    obtain ⟨e', hmem', hsame⟩ := List.mem_map.mp hkey'
    have howner := howned (id, entries) ((Table.mem_toList _ _ _).mpr he) e hmem
    have howner' := howned (id', entries') ((Table.mem_toList _ _ _).mpr he') e' hmem'
    rw [hsame, howner] at howner'
    exact Option.some.inj howner'
  kept := by
    intro bls hb id he
    exact hkept bls hb (id, []) ((Table.mem_toList _ _ _).mpr he) rfl

/-- The manifest carries these histories. -/
structure SnapshotManifest.Carries (m : SnapshotManifest) (h : Histories) : Prop where
  set : m.validatorHistory = h.set.toPersisted
  key : m.validatorKeyHistory = h.key.toPersisted
  bls : m.blsKeyHistory = h.bls.map BlsKeyHistory.toPersisted
  operator : m.operatorKeyHistory = h.operator.map OperatorKeyHistory.toPersisted

section
variable {m : SnapshotManifest} {h : Histories}

theorem SnapshotManifest.Carries.readable (hm : m.Carries h) {rebuilt : Histories}
    (hr : m.rebuiltHistories = some rebuilt) : h.Readable := by
  obtain ⟨-, hkey, hbls, -⟩ := SnapshotManifest.rebuiltHistories_eq_some.mp hr
  rw [hm.key] at hkey
  refine ⟨ValidatorKeyHistory.apart_of_fromPersisted hkey, ?_⟩
  intro bls hsome
  rw [hm.bls, Option.mem_def.mp hsome] at hbls
  obtain ⟨read, hread, -⟩ := Option.map_eq_some_iff.mp hbls
  have hok := toOption_eq_some.mp hread
  unfold BlsKeyHistory.fromPersisted BlsKeyHistory.toPersisted at hok
  cases ht : restoreKeys (persistKeys bls.byStableId) with
  | error e =>
    rw [ht] at hok
    cases hok
  | ok t => exact ne_nil_of_restoreKeys ht

theorem SnapshotManifest.Carries.rebuilt (hm : m.Carries h) (hrooted : h.key.Rooted)
    (hbls : HasBls Ascending h.bls) (hop : ∃ op ∈ h.operator, Ordered op.byStableId)
    (hr : h.Readable) :
    ∃ rebuilt, m.rebuiltHistories = some rebuilt ∧ rebuilt.toPersisted = h.toPersisted := by
  have hordered : Ordered h.key.byStableId := by
    intro id entries he
    have hfirst := hrooted.first id entries he
    refine ⟨?_, hrooted.sorted id entries he⟩
    rintro rfl
    cases hfirst
  obtain ⟨key, hkey, hkeySame⟩ := ValidatorKeyHistory.fromPersisted_of_apart hordered
    (fun id entries he => by rw [hrooted.first id entries he]; rfl) hr.apart
  obtain ⟨bls, hb, hascending⟩ := hbls
  obtain ⟨bls', hblsRead, hblsAlike⟩ := BlsKeyHistory.fromPersisted_toPersisted
    (hascending.ordered (hr.kept bls hb))
  obtain ⟨op, ho, hopOrdered⟩ := hop
  obtain ⟨op', hopRead, hopAlike⟩ := OperatorKeyHistory.fromPersisted_toPersisted hopOrdered
  refine ⟨⟨h.set, key, some bls', some op'⟩, ?_, ?_⟩
  · apply SnapshotManifest.rebuiltHistories_eq_some.mpr
    rw [hm.set, hm.key, hm.bls, hm.operator, Option.mem_def.mp hb, Option.mem_def.mp ho]
    refine ⟨ValidatorSetHistory.fromPersisted_toPersisted h.set, hkey, ?_, ?_⟩
    · exact Option.map_eq_some_iff.mpr ⟨bls', toOption_eq_some.mpr hblsRead, rfl⟩
    · exact Option.map_eq_some_iff.mpr ⟨op', toOption_eq_some.mpr hopRead, rfl⟩
  · unfold Histories.toPersisted ValidatorKeyHistory.toPersisted
    rw [Option.mem_def.mp hb, Option.mem_def.mp ho]
    simp only [Option.map_some, BlsKeyHistory.toPersisted, OperatorKeyHistory.toPersisted]
    rw [persistKeys_eq hkeySame, persistKeys_eq hblsAlike, persistKeys_eq hopAlike]

end

/-! ### Which snapshots verify -/

section
variable {P : Primitives} {E : CommitPrimitives} {cfg : NodeConfigForConsensus}
  {sha256 : Bytes → Bytes32} {src : SnapshotSources} {block : Block} {m : SnapshotManifest}
  {chunks : List Bytes} {store : SnapshotStore}

/-- A snapshot is taken of the histories before the commands of its block. -/
theorem saved_of_snapshotAtCommit {cfg : NodeConfig} {r : RunningNode} {storage : Storage}
    (h : r.snapshotAtCommit P sha256 cfg storage src block = some (.saved m chunks store)) :
    ∃ n : ConsensusNode, n.histories = r.node.histories ∧
      n.tryTakeSnapshot P sha256 src block = some (.saved m chunks store) := by
  unfold RunningNode.snapshotAtCommit at h
  simp only [Option.bind_eq_bind] at h
  obtain ⟨⟨storage', n⟩, hbatch, h⟩ := Option.bind_eq_some_iff.mp h
  simp only at h
  split_ifs at h
  · exact ⟨n, (CommitSystem.commitBatch_keeps hbatch).2.1, h⟩
  · cases h

theorem carries_of_saved {n : ConsensusNode}
    (h : n.tryTakeSnapshot P sha256 src block = some (.saved m chunks store)) :
    m.Carries n.histories := by
  obtain ⟨_, _, -, -, hbuilt, -⟩ := taken_of_saved h
  unfold SnapshotManifest.build at hbuilt
  split_ifs at hbuilt
  rw [← Option.some.inj hbuilt]
  exact ⟨rfl, rfl, rfl, rfl⟩

theorem commitment_of_persisted {R : HistoryPrimitives} {h h' : Histories}
    (he : h.toPersisted = h'.toPersisted) :
    validatorHistoryCommitmentV2 R h = validatorHistoryCommitmentV2 R h' := by
  obtain ⟨hset, hkey, hbls, hoperator⟩ := PersistedHistories.mk.inj he
  unfold validatorHistoryCommitmentV2
  rw [hset, hkey, hbls, hoperator]

variable (P E cfg) in
/-- What a snapshot at a block needs, whose leader holds the histories of the blocks `committed`:
all weights of the active set are one, the certificate is by a quorum of it, the histories of the
node can be decoded, and the block makes of its leader's histories what the node has before it. -/
structure SnapshotFits (n : ConsensusNode) (committed : List Block) (src : SnapshotSources)
    (block : Block) : Prop where
  weights : ∀ w ∈ (n.validatorHistory.setAt block.header.view).weights, w = 1
  certificate : ∀ qc ∈ src.recentQcs.get? (block.hash P),
    qc.isWellFormed (n.validatorHistory.setAt block.header.view) = true ∧
      qc.hasQuorum (n.validatorHistory.setAt block.header.view) = true
  readable : n.histories.Readable
  settled : (replayBlock E.toHistoryPrimitives cfg.minVEffDelay (cfg.chainId P)
    (ChainState.ofChain P E cfg committed).histories block).toPersisted = n.histories.toPersisted

/-- In every run whose stops lose nothing, the manifest that a node saves at a stamped block
verifies against the set of the block's view exactly when the snapshot fits; its chunks always
do. -/
theorem taken_snapshot_accepted_iff (hfree : E.toHistoryPrimitives.CollisionFree)
    {inputs : List CommitInput}
    (h : Along (CommitSystem.step P E cfg) (CommitSystem.EndsSafely P cfg) .fresh inputs)
    {s : CommitSystem} (hs : s = run (CommitSystem.step P E cfg) .fresh inputs)
    {r : RunningNode} (hr : r ∈ s.node) {V : Verifier} {lag : ℕ}
    (hstamped : StampedBy P E cfg V (s.chain.take lag) block) {qcs : List QuorumCertificate}
    (hcache : src.recentQcs = .recorded qcs)
    (hsaved : r.snapshotAtCommit P sha256 cfg.toNodeConfig s.store.storage src block =
      some (.saved m chunks store)) :
    (m.verify P E.toHistoryPrimitives (r.node.validatorHistory.setAt block.header.view) =
        .ok () ↔ SnapshotFits P E cfg r.node (s.chain.take lag) src block) ∧
      ∀ (i : ℕ) c, chunks[i]? = some c → m.verifyChunk sha256 i c = .ok () := by
  have hdurable := CommitSystem.durable_run h
  rw [← hs] at hdurable
  have hsound := (hdurable.running r hr).sound
  obtain ⟨n, hsame, htaken⟩ := saved_of_snapshotAtCommit hsaved
  have hset : n.validatorHistory = r.node.validatorHistory := congrArg Histories.set hsame
  have hcarries := carries_of_saved htaken
  have hverify := verify_saved_iff (R := E.toHistoryPrimitives) hcache htaken
  rw [hset] at hverify
  rw [hsame] at hcarries
  refine ⟨hverify.trans ?_, fun i c hc => verifyChunk_of_saved htaken hc⟩
  have hrebuilt := hcarries.rebuilt hsound.rooted hsound.bls hsound.operator
  have hop : r.node.histories.operator.isSome := rfl
  have hcommitment := stamp_eq_iff hfree hstamped hop
  constructor
  · rintro ⟨hweights, hcertificate, rebuilt, hread, hcommit⟩
    have hreadable := hcarries.readable hread
    obtain ⟨rebuilt', hread', hpersisted⟩ := hrebuilt hreadable
    rw [Option.some.inj (hread.symm.trans hread'), commitment_of_persisted hpersisted] at hcommit
    exact ⟨hweights, hcertificate, hreadable, hcommitment.mp hcommit.symm⟩
  · intro hfits
    obtain ⟨rebuilt, hread, hpersisted⟩ := hrebuilt hfits.readable
    have hcommit := hcommitment.mpr hfits.settled
    exact ⟨hfits.weights, hfits.certificate, rebuilt, hread,
      (commitment_of_persisted hpersisted).trans hcommit.symm⟩

end

namespace Sample

def tookFrom (block : Block) : SnapshotSources where
  policy := ⟨1, 0, 2⟩
  recentQcs := .recorded [certificate block]
  appSnapshot := [1, 2, 3]
  unixSecs := 0
  store := ⟨∅, ∅, none⟩

/-- The first validator has weight two. -/
def uneven : NodeConfigForConsensus :=
  { pinnedDurable with
    validatorSet := { validators with
      weights := [2, 1, 1, 1]
      weights_length := by decide
      weights_ne_zero := by simp } }

/-- A fresh node, a block with these commands that another fresh node stamps, and the snapshot that
the first one takes there. -/
def taking (cfg : NodeConfigForConsensus) (commands : List Bytes) :
    Option (RunningNode × Block × SnapshotManifest × List Bytes) := do
  let leader ← recover timed cfg.toNodeConfig .empty
  let block := (stampProposal (verifier.overHistories allChanges) cfg.toNodeConfig timed leader
    ⟨blockOn (cfg.genesis timed) 10 0 commands, certificate (cfg.genesis timed)⟩).block
  let r ← (run (CommitSystem.step timed writing cfg) .fresh [.start]).node
  let outcome ← r.snapshotAtCommit timed List.length cfg.toNodeConfig .empty (tookFrom block) block
  let saved ← outcome.saved?
  return (r, block, saved)

/-- The snapshot at an empty block, with the genesis histories. -/
theorem empty_block_accepted : ∃ t ∈ taking pinnedDurable [], t.2.2.1.verify timed allChanges
    (t.1.node.validatorHistory.setAt t.2.1.header.view) = .ok () := by
  obtain ⟨⟨r, block, m, chunks⟩, ht, hweights, hcertificate, howned, hkept⟩ :
      ∃ t ∈ taking pinnedDurable [],
        (t.1.node.validatorHistory.setAt t.2.1.header.view).weights =
          List.replicate 4 1 ∧
        (∀ qc ∈ (tookFrom t.2.1).recentQcs.get? (t.2.1.hash timed),
          qc.isWellFormed (t.1.node.validatorHistory.setAt t.2.1.header.view) = true ∧
            qc.hasQuorum (t.1.node.validatorHistory.setAt t.2.1.header.view) = true) ∧
        (∀ p ∈ t.1.node.validatorKeyHistory.byStableId.toList, ∀ e ∈ p.2,
          t.1.node.validatorKeyHistory.pubkeyToStableId.get? e.key = some p.1) ∧
        ∀ bls ∈ t.1.node.blsKeyHistory, ∀ p ∈ bls.byStableId.toList, p.2 ≠ [] := by decide +kernel
  refine ⟨(r, block, m, chunks), ht, ?_⟩
  unfold taking at ht
  simp only [Option.bind_eq_bind, Option.mem_def, Option.bind_eq_some_iff] at ht
  obtain ⟨leader, hleader, r', hr, outcome, houtcome, ⟨m', chunks'⟩, hsaved, heq⟩ := ht
  obtain ⟨store, rfl⟩ := SnapshotOutcome.saved?_eq_some hsaved
  obtain ⟨rfl, hrest⟩ := Prod.mk.inj (Option.some.inj heq)
  obtain ⟨hblock, hrest⟩ := Prod.mk.inj hrest
  obtain ⟨rfl, rfl⟩ := Prod.mk.inj hrest
  rw [hblock] at houtcome
  have hends : Along (CommitSystem.step timed writing pinnedDurable)
      (CommitSystem.EndsSafely timed pinnedDurable) .fresh [.start] := ⟨fun h => h.elim, trivial⟩
  have hstamped : StampedBy timed writing pinnedDurable verifier
      ((pinnedRun [.start]).chain.take 0) block := by
    rw [← hblock]
    exact stampedBy_of_fresh hleader _
  have hreflects := (CommitSystem.durable_run hends).running r' hr
  obtain ⟨haccepted, -⟩ := taken_snapshot_accepted_iff collisionFree_allChanges hends rfl hr
    hstamped rfl houtcome
  have hones : ∀ w ∈ (r'.node.validatorHistory.setAt block.header.view).weights, w = 1 := by
    intro w hw
    rw [hweights] at hw
    exact List.eq_of_mem_replicate hw
  refine haccepted.mpr ⟨hones, hcertificate, Histories.readable_of_lists howned hkept, ?_⟩
  have hempty : block.commands = [] := by
    rw [← hblock]
    rfl
  have hsame := replayBlock_of_no_commands allChanges pinned.minVEffDelay (pinned.chainId timed)
    (ChainState.ofChain timed writing pinnedDurable []).histories hempty
  exact (congrArg Histories.toPersisted hsame).trans hreflects.state.symm.histories.toPersisted

/-- The snapshot at a rotation is refused, and so is any snapshot of a set with another weight. -/
theorem snapshots_refused :
    (∃ t ∈ taking pinnedDurable [rotate₄], t.2.2.1.verify timed allChanges
      (t.1.node.validatorHistory.setAt 10) = .error .validatorHistoryCommitmentMismatch) ∧
    ∃ t ∈ taking uneven [], t.2.2.1.verify timed allChanges
      (t.1.node.validatorHistory.setAt 10) = .error .validatorSetMismatch := by
  decide +kernel

end Sample

end Boule
