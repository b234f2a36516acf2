import Boule.Node.Joining
import Boule.Node.TakeSnapshot

/-! What a snapshot store holds after any sequence of saves, deletions and prunings. -/
namespace Boule

namespace SnapshotStore

def empty : SnapshotStore := ⟨∅, ∅, none⟩

/-- The pointer counts only while its manifest is there. -/
def latestHeight (s : SnapshotStore) : Option ℕ :=
  match s.latest with
  | none => none
  | some height => if (s.loadManifest height).isSome then some height else none

inductive Call where
  | save (manifest : SnapshotManifest) (chunks : List Bytes)
  | delete (height : ℕ)
  | pruneOlderThan (retainN : ℕ)

/-- A save that is refused writes nothing. -/
def step (sha256 : Bytes → Bytes32) (s : SnapshotStore) : Call → SnapshotStore
  | .save manifest chunks =>
    match s.save sha256 manifest chunks with
    | .error _ => s
    | .ok s => s
  | .delete height => s.delete height
  | .pruneOlderThan retainN => s.pruneOlderThan retainN

/-- The pointer names the greatest height, every manifest has its chunks, and there are no other
chunks; and pruning keeps the greatest heights. -/
structure Consistent (sha256 : Bytes → Bytes32) (s : SnapshotStore) : Prop where
  latest : s.latestHeight = s.listHeights.max?
  chunks : ∀ height m, s.loadManifest height = some m → ∀ i, i < m.chunkCount →
    ∃ c, s.loadChunk height i = some c ∧ m.chunkHashes[i]? = some (sha256 c)
  manifests : ∀ height i c, s.loadChunk height i = some c →
    ∃ m, s.loadManifest height = some m ∧ i < m.chunkCount
  pruned : ∀ n, 0 < n →
    (s.pruneOlderThan n).listHeights = s.listHeights.drop (s.listHeights.length - n)

/-- A saved snapshot is the highest one, and has no fewer chunks than the one it replaces. -/
def Supersedes (sha256 : Bytes → Bytes32) (s : SnapshotStore) : Call → Prop
  | .save manifest chunks => (∃ s', s.save sha256 manifest chunks = .ok s') →
    (∀ height ∈ s.listHeights, height ≤ manifest.height) ∧
      ∀ old, s.loadManifest manifest.height = some old → old.chunkCount ≤ manifest.chunkCount
  | _ => True

/-! ### Heights -/

section
variable {s : SnapshotStore}

theorem mem_listHeights {height : ℕ} :
    height ∈ s.listHeights ↔ ∃ m, s.loadManifest height = some m := by
  unfold listHeights
  rw [List.mem_insertionSort, List.mem_map]
  constructor
  · rintro ⟨⟨_, m⟩, hmem, rfl⟩
    exact ⟨m, (Table.mem_toList _ _ _).mp hmem⟩
  · rintro ⟨m, hm⟩
    exact ⟨(height, m), (Table.mem_toList _ _ _).mpr hm, rfl⟩

theorem pairwise_listHeights (s : SnapshotStore) : s.listHeights.Pairwise (· < ·) := by
  have hsorted : s.listHeights.Pairwise (· ≤ ·) := List.pairwise_insertionSort _ _
  have hnodup : s.listHeights.Nodup :=
    (List.perm_insertionSort _ _).nodup_iff.mpr s.manifests.nodup_toList
  exact hsorted.imp₂ (fun a b hle hne => lt_of_le_of_ne hle hne) hnodup

theorem getLast?_eq_max? {l : List ℕ} (h : l.Pairwise (· < ·)) : l.getLast? = l.max? := by
  rcases List.eq_nil_or_concat l with rfl | ⟨front, last, rfl⟩
  · rfl
  · rw [List.concat_eq_append] at h ⊢
    rw [List.getLast?_concat, eq_comm, List.max?_eq_some_iff]
    rw [List.pairwise_append] at h
    refine ⟨by simp, fun b hb => ?_⟩
    rcases List.mem_append.mp hb with hb | hb
    · exact (h.2.2 b hb last (by simp)).le
    · exact (List.mem_singleton.mp hb).le

theorem loadManifest_delete (s : SnapshotStore) (height k : ℕ) :
    (s.delete height).loadManifest k = if k = height then none else s.loadManifest k :=
  Table.get?_erase _ _ _

theorem loadChunk_delete (s : SnapshotStore) (height k i : ℕ) :
    (s.delete height).loadChunk k i = if k ≠ height then s.loadChunk k i else none := by
  unfold loadChunk delete
  rw [Table.get?_retain_key s.chunks (fun k : ℕ × ℕ => decide (k.1 ≠ height))]
  simp

theorem eq_of_sorted {l l' : List ℕ} (h : l.Pairwise (· < ·)) (h' : l'.Pairwise (· < ·))
    (hmem : ∀ a, a ∈ l ↔ a ∈ l') : l = l' := by
  have hnodup : ∀ {l : List ℕ}, l.Pairwise (· < ·) → l.Nodup := fun h => h.imp fun hlt => hlt.ne
  have hperm : l.Perm l' := (List.perm_ext_iff_of_nodup (hnodup h) (hnodup h')).mpr hmem
  exact hperm.eq_of_pairwise (fun a b _ _ hab hba => absurd hba (lt_asymm hab)) h h'

theorem listHeights_delete (s : SnapshotStore) (height : ℕ) :
    (s.delete height).listHeights = s.listHeights.filter (· ≠ height) := by
  refine eq_of_sorted (pairwise_listHeights _) ((pairwise_listHeights s).filter _) fun k => ?_
  rw [mem_listHeights, List.mem_filter, mem_listHeights, loadManifest_delete, decide_eq_true_iff]
  split_ifs with hk
  · simp [hk]
  · simp [hk]

theorem listHeights_foldl_delete (s : SnapshotStore) (heights : List ℕ) :
    (heights.foldl delete s).listHeights = s.listHeights.filter (· ∉ heights) := by
  induction heights generalizing s with
  | nil => simp
  | cons height heights ih =>
    rw [List.foldl_cons, ih, listHeights_delete, List.filter_filter]
    refine List.filter_congr fun k _ => ?_
    rw [← Bool.decide_and, decide_eq_decide, List.mem_cons, not_or, and_comm]

/-- What is pruned are the lowest heights. -/
theorem listHeights_pruneOlderThan (s : SnapshotStore) {n : ℕ} (hn : 0 < n) :
    (s.pruneOlderThan n).listHeights = s.listHeights.drop (s.listHeights.length - n) := by
  unfold pruneOlderThan
  rw [if_neg hn.ne', listHeights_foldl_delete]
  generalize s.listHeights.length - n = k
  have hnodup : s.listHeights.Nodup := (pairwise_listHeights s).imp fun hlt => hlt.ne
  generalize s.listHeights = l at hnodup
  have hsplit := List.take_append_drop k l
  rw [← hsplit, List.nodup_append] at hnodup
  conv_lhs => rw [← hsplit]
  rw [List.filter_append, hsplit, List.filter_eq_nil_iff.mpr, List.filter_eq_self.mpr,
    List.nil_append]
  · exact fun a ha => decide_eq_true fun ha' => hnodup.2.2 a ha' a ha rfl
  · exact fun a ha => by simp [ha]

theorem latestHeight_eq {height : ℕ} (h : s.latest = some height) {m : SnapshotManifest}
    (hm : s.loadManifest height = some m) : s.latestHeight = some height := by
  unfold latestHeight
  rw [h]
  simp [hm]

theorem latestHeight_delete (s : SnapshotStore) (height : ℕ) :
    (s.delete height).latestHeight = (s.delete height).listHeights.max? := by
  have hlatest : (s.delete height).latest = (s.delete height).listHeights.max? := by
    rw [← getLast?_eq_max? (pairwise_listHeights _), listHeights_delete, ← List.head?_reverse,
      ← List.filter_reverse, List.head?_filter]
    rfl
  cases hmax : (s.delete height).listHeights.max? with
  | none =>
    unfold latestHeight
    rw [hlatest, hmax]
  | some top =>
    obtain ⟨m, hm⟩ := mem_listHeights.mp (List.max?_mem hmax)
    exact latestHeight_eq (hlatest.trans hmax) hm

end

/-! ### One call -/

section
variable {sha256 : Bytes → Bytes32} {s s' : SnapshotStore} {m : SnapshotManifest}
  {chunks : List Bytes}

theorem consistent_empty : empty.Consistent sha256 where
  latest := rfl
  chunks height m hm := by cases hm
  manifests height i c hc := by cases hc
  pruned n hn := listHeights_pruneOlderThan _ hn

/-- A deletion finds the greatest height again. -/
theorem Consistent.delete (h : s.Consistent sha256) (height : ℕ) :
    (s.delete height).Consistent sha256 where
  latest := latestHeight_delete s height
  chunks := by
    intro k m hm i hi
    rw [loadManifest_delete] at hm
    split_ifs at hm with hk
    rw [loadChunk_delete, if_pos hk]
    exact h.chunks k m hm i hi
  manifests := by
    intro k i c hc
    rw [loadChunk_delete] at hc
    split_ifs at hc with hk
    rw [loadManifest_delete, if_neg hk]
    exact h.manifests k i c hc
  pruned n hn := listHeights_pruneOlderThan _ hn

theorem Consistent.pruneOlderThan (h : s.Consistent sha256) (n : ℕ) :
    (s.pruneOlderThan n).Consistent sha256 := by
  unfold SnapshotStore.pruneOlderThan
  split_ifs
  · exact h
  · generalize s.listHeights.take _ = heights
    induction heights generalizing s with
    | nil => exact h
    | cons height heights ih => exact ih (h.delete height)

/-- What a save writes. -/
structure Saved (sha256 : Bytes → Bytes32) (s : SnapshotStore) (m : SnapshotManifest)
    (chunks : List Bytes) (s' : SnapshotStore) : Prop where
  count : chunks.length = m.chunkCount
  hashes : ∀ (i : ℕ) c, chunks[i]? = some c → m.chunkHashes[i]? = some (sha256 c)
  loadManifest : ∀ height, s'.loadManifest height =
    if height = m.height then some m else s.loadManifest height
  loadChunk : ∀ height i, s'.loadChunk height i =
    if height = m.height ∧ i < chunks.length then chunks[i]? else s.loadChunk height i
  latest : s'.latest = some m.height

theorem get?_foldl_chunks (t : Table (ℕ × ℕ) Bytes) (height : ℕ) (chunks : List Bytes) (k i : ℕ) :
    Table.get? (chunks.zipIdx.foldl (fun t c => t.insert (height, c.2) c.1) t) (k, i) =
      if k = height ∧ i < chunks.length then chunks[i]? else t.get? (k, i) := by
  induction chunks using List.reverseRecOn with
  | nil => simp
  | append_singleton chunks c ih =>
    rw [List.zipIdx_append, List.foldl_append, List.zipIdx_singleton, List.foldl_cons,
      List.foldl_nil, Table.get?_insert, ih, List.length_append, List.length_singleton, zero_add]
    by_cases hk : k = height
    · rcases lt_trichotomy i chunks.length with hlt | rfl | hgt
      · have hne : (k, i) ≠ (height, chunks.length) := fun he => hlt.ne (Prod.mk.inj he).2
        rw [if_neg hne, if_pos ⟨hk, hlt⟩, if_pos ⟨hk, by omega⟩, List.getElem?_append_left hlt]
      · rw [if_pos (by rw [hk]), if_pos ⟨hk, by omega⟩, List.getElem?_concat_length]
      · have hne : (k, i) ≠ (height, chunks.length) := fun he => hgt.ne' (Prod.mk.inj he).2
        rw [if_neg hne, if_neg (by omega), if_neg (by omega)]
    · have hne : (k, i) ≠ (height, chunks.length) := fun he => hk (Prod.mk.inj he).1
      rw [if_neg hne, if_neg (fun h => hk h.1), if_neg (fun h => hk h.1)]

theorem saved_of_save (h : s.save sha256 m chunks = .ok s') : Saved sha256 s m chunks s' := by
  unfold save at h
  obtain ⟨_, hcount, h⟩ := bind_eq_ok.mp h
  obtain ⟨_, hhashes, h⟩ := bind_eq_ok.mp h
  obtain rfl := Except.ok.inj h
  refine ⟨of_decide_eq_true (require_eq_ok.mp hcount), fun i c hc => ?_,
    fun height => Table.get?_insert _ _ _ _,
    fun height i => get?_foldl_chunks s.chunks m.height chunks height i, rfl⟩
  have hone := forM_eq_ok.mp hhashes (c, i) (List.mem_zipIdx_iff_getElem?.mpr hc)
  exact of_decide_eq_true (require_eq_ok.mp hone)

theorem Saved.listHeights_max (h : Saved sha256 s m chunks s') :
    s'.latestHeight = s'.listHeights.max? ↔ ∀ height ∈ s.listHeights, height ≤ m.height := by
  have hm : s'.loadManifest m.height = some m := by rw [h.loadManifest, if_pos rfl]
  have hmem : ∀ height, height ∈ s'.listHeights ↔ height = m.height ∨ height ∈ s.listHeights := by
    intro height
    rw [mem_listHeights, mem_listHeights, h.loadManifest]
    split_ifs with he
    · simp [he]
    · simp [he]
  rw [latestHeight_eq h.latest hm, eq_comm, List.max?_eq_some_iff]
  constructor
  · exact fun hmax height hh => hmax.2 height ((hmem height).mpr (.inr hh))
  · refine fun hall => ⟨(hmem _).mpr (.inl rfl), fun height hh => ?_⟩
    rcases (hmem height).mp hh with rfl | hh
    · exact le_rfl
    · exact hall height hh

theorem Saved.all_chunks (h : Saved sha256 s m chunks s') (hs : s.Consistent sha256) :
    ∀ height m', s'.loadManifest height = some m' → ∀ i, i < m'.chunkCount →
      ∃ c, s'.loadChunk height i = some c ∧ m'.chunkHashes[i]? = some (sha256 c) := by
  intro height m' hm' i hi
  rw [h.loadManifest] at hm'
  split_ifs at hm' with he
  · obtain rfl := Option.some.inj hm'
    have hlt : i < chunks.length := h.count ▸ hi
    have hc := List.getElem?_eq_getElem hlt
    exact ⟨chunks[i], by rw [h.loadChunk, if_pos ⟨he, hlt⟩, hc], h.hashes i _ hc⟩
  · obtain ⟨c, hc, hhash⟩ := hs.chunks height m' hm' i hi
    exact ⟨c, by rw [h.loadChunk, if_neg fun h => he h.1, hc], hhash⟩

/-- A manifest leaves chunks behind that one with fewer chunks does not overwrite. -/
theorem Saved.manifests_iff (h : Saved sha256 s m chunks s') (hs : s.Consistent sha256) :
    (∀ height i c, s'.loadChunk height i = some c →
      ∃ m', s'.loadManifest height = some m' ∧ i < m'.chunkCount) ↔
        ∀ old, s.loadManifest m.height = some old → old.chunkCount ≤ m.chunkCount := by
  have hm : s'.loadManifest m.height = some m := by rw [h.loadManifest, if_pos rfl]
  constructor
  · intro hall old hold
    by_contra hlt
    obtain ⟨c, hc, -⟩ := hs.chunks m.height old hold m.chunkCount (not_le.mp hlt)
    have hc' : s'.loadChunk m.height m.chunkCount = some c := by
      rw [h.loadChunk, if_neg (by rw [h.count]; omega), hc]
    obtain ⟨m', hm', hlt'⟩ := hall _ _ c hc'
    obtain rfl := Option.some.inj (hm.symm.trans hm')
    exact lt_irrefl _ hlt'
  · intro hfewer height i c hc
    rw [h.loadChunk] at hc
    split_ifs at hc with hnew
    · obtain ⟨rfl, hlt⟩ := hnew
      exact ⟨m, hm, h.count ▸ hlt⟩
    · obtain ⟨old, hold, hlt⟩ := hs.manifests height i c hc
      by_cases he : height = m.height
      · subst he
        exact ⟨m, hm, lt_of_lt_of_le hlt (hfewer old hold)⟩
      · exact ⟨old, by rw [h.loadManifest, if_neg he, hold], hlt⟩

theorem consistent_step_iff (hs : s.Consistent sha256) (call : Call) :
    (s.step sha256 call).Consistent sha256 ↔ s.Supersedes sha256 call := by
  cases call with
  | delete height => exact iff_of_true (hs.delete height) trivial
  | pruneOlderThan n => exact iff_of_true (hs.pruneOlderThan n) trivial
  | save m chunks =>
    cases hsave : s.save sha256 m chunks with
    | error e =>
      have hstep : s.step sha256 (.save m chunks) = s := by
        unfold step
        simp only [hsave]
      rw [hstep]
      refine iff_of_true hs fun ⟨s', h⟩ => ?_
      rw [hsave] at h
      cases h
    | ok s' =>
      have hstep : s.step sha256 (.save m chunks) = s' := by
        unfold step
        simp only [hsave]
      have h := saved_of_save hsave
      rw [hstep]
      constructor
      · exact fun h' _ => ⟨h.listHeights_max.mp h'.latest, (h.manifests_iff hs).mp h'.manifests⟩
      · intro hnew
        obtain ⟨hhighest, hfewer⟩ := hnew ⟨s', hsave⟩
        exact ⟨h.listHeights_max.mpr hhighest, h.all_chunks hs, (h.manifests_iff hs).mpr hfewer,
          fun n hn => listHeights_pruneOlderThan _ hn⟩

/-- Every state of a run is consistent exactly if all saves go upwards and replace a manifest by
one with at least its chunks. -/
theorem consistent_iff_supersedes (sha256 : Bytes → Bytes32) (calls : List Call) :
    (∀ k, (run (step sha256) empty (calls.take k)).Consistent sha256) ↔
      Along (step sha256) (Supersedes sha256) empty calls :=
  along_iff_of_step (I := Consistent sha256) (fun _ call h => consistent_step_iff h call)
    consistent_empty

end

end SnapshotStore

namespace Sample

/-- A manifest of `n` empty chunks at a height. -/
def manifestAt (height n : ℕ) : SnapshotManifest :=
  { snapshotOf changing with
    height := height
    chunkCount := n
    chunkHashes := List.replicate n (lengthHash []) }

def saving (height n : ℕ) : SnapshotStore.Call :=
  .save (manifestAt height n) (List.replicate n [])

/-- An older snapshot becomes the latest one, and a shorter one leaves a chunk of the longer one. -/
theorem saves_inconsistent :
    ¬ (run (SnapshotStore.step lengthHash) .empty [saving 2 1, saving 1 1]).Consistent lengthHash ∧
      ¬ (run (SnapshotStore.step lengthHash) .empty [saving 1 2, saving 1 1]).Consistent
        lengthHash := by
  obtain ⟨hlatest, hlist, hchunk, hmanifest⟩ :
      (run (SnapshotStore.step lengthHash) .empty [saving 2 1, saving 1 1]).latestHeight = some 1 ∧
      (run (SnapshotStore.step lengthHash) .empty [saving 2 1, saving 1 1]).listHeights = [1, 2] ∧
      (run (SnapshotStore.step lengthHash) .empty [saving 1 2, saving 1 1]).loadChunk 1 1 =
        some [] ∧
      (run (SnapshotStore.step lengthHash) .empty [saving 1 2, saving 1 1]).loadManifest 1 =
        some (manifestAt 1 1) := by
    decide +kernel
  constructor
  · intro h
    have hmax := h.latest
    rw [hlatest, hlist] at hmax
    cases hmax
  · intro h
    obtain ⟨m, hm, hlt⟩ := h.manifests 1 1 [] hchunk
    obtain rfl := Option.some.inj (hmanifest.symm.trans hm)
    exact absurd hlt (by decide)

end Sample

end Boule
