import Boule.HistoryLookups

/-! Histories that are written and read back: key histories in order decode, with the lookups that
they had. -/
namespace Boule

/-- The entries of every id are there, at larger and larger views. -/
def Ordered (t : Table NodeId (List KeyEntry)) : Prop :=
  ∀ id entries, t.get? id = some entries →
    entries ≠ [] ∧ entries.Pairwise fun e e' => e.vEff < e'.vEff

/-- The order in which a history is written. -/
def sortedEntries (t : Table NodeId (List KeyEntry)) : List (NodeId × List KeyEntry) :=
  t.toList.insertionSort fun a b => a.1 ≤ b.1

theorem mem_sortedEntries {t : Table NodeId (List KeyEntry)} {id : NodeId}
    {entries : List KeyEntry} : (id, entries) ∈ sortedEntries t ↔ t.get? id = some entries := by
  rw [← t.mem_toList]
  exact (List.perm_insertionSort _ _).mem_iff

theorem nodup_sortedEntries (t : Table NodeId (List KeyEntry)) :
    ((sortedEntries t).map Prod.fst).Nodup :=
  ((List.perm_insertionSort _ _).map Prod.fst).nodup_iff.mpr t.nodup_toList

theorem checkIncreasing_eq_ok (stableId : NodeId) {entries : List KeyEntry} {prev : Option ℕ}
    (hprev : ∀ p ∈ prev, ∀ e ∈ entries, p < e.vEff)
    (h : entries.Pairwise fun e e' => e.vEff < e'.vEff) :
    checkIncreasing stableId prev entries = .ok () := by
  induction entries generalizing prev with
  | nil => rfl
  | cons e entries ih =>
    obtain ⟨hlt, hrest⟩ := List.pairwise_cons.mp h
    refine bind_eq_ok.mpr ⟨(), require_eq_ok.mpr ?_, ih ?_ hrest⟩
    · cases prev with
      | none => rfl
      | some p =>
        have hp := hprev p rfl e (List.mem_cons_self ..)
        simpa using hp
    · intro p hp
      obtain rfl := Option.some.inj hp
      exact hlt

/-- A table that holds the listed entries, and otherwise what another one holds. -/
def Holds (t t₀ : Table NodeId (List KeyEntry)) (listed : List (NodeId × List KeyEntry)) : Prop :=
  (∀ e ∈ listed, t.get? e.1 = some e.2) ∧
    ∀ id, id ∉ listed.map Prod.fst → t.get? id = t₀.get? id

theorem Holds.cons {t t₀ : Table NodeId (List KeyEntry)} {e : NodeId × List KeyEntry}
    {listed : List (NodeId × List KeyEntry)} (hnew : e.1 ∉ listed.map Prod.fst)
    (h : Holds t (t₀.insert e.1 e.2) listed) : Holds t t₀ (e :: listed) := by
  constructor
  · intro e' he'
    rcases List.mem_cons.mp he' with rfl | he'
    · rw [h.2 _ hnew, Table.get?_insert_self]
    · exact h.1 e' he'
  · intro id hid
    rw [List.map_cons, List.mem_cons, not_or] at hid
    rw [h.2 id hid.2, Table.get?_insert_of_ne _ hid.1]

/-- A table built from its own entries answers as before. -/
theorem Holds.same {t t' : Table NodeId (List KeyEntry)} (h : Holds t ∅ (sortedEntries t')) :
    t.Same t' := by
  intro id
  cases he : t'.get? id with
  | some entries => exact h.1 _ (mem_sortedEntries.mpr he)
  | none =>
    have hid : id ∉ (sortedEntries t').map Prod.fst := by
      intro hid
      obtain ⟨⟨id', entries⟩, hmem, rfl⟩ := List.mem_map.mp hid
      rw [mem_sortedEntries.mp hmem] at he
      cases he
    rw [h.2 id hid, Table.get?_empty]

theorem restoreKeys_listed {listed : List (NodeId × List KeyEntry)}
    (hnodup : (listed.map Prod.fst).Nodup)
    (hordered : ∀ e ∈ listed, e.2 ≠ [] ∧ e.2.Pairwise fun a b => a.vEff < b.vEff)
    (t₀ : Table NodeId (List KeyEntry)) :
    ∃ t, (listed.map fun e => (⟨e.1, e.2⟩ : PersistedValidator)).foldlM
      (fun (t : Table NodeId (List KeyEntry)) v => do
        require (!v.entries.isEmpty) (PersistedKeyError.noEntries v.stableId)
        checkIncreasing v.stableId none v.entries
        return t.insert v.stableId v.entries) t₀ = .ok t ∧ Holds t t₀ listed := by
  induction listed generalizing t₀ with
  | nil => exact ⟨t₀, rfl, by simp [Holds]⟩
  | cons e listed ih =>
    obtain ⟨hnew, hnodup⟩ := List.nodup_cons.mp hnodup
    obtain ⟨hne, hsorted⟩ := hordered e (List.mem_cons_self ..)
    obtain ⟨t, hfold, hholds⟩ := ih hnodup (fun e' he' => hordered e' (List.mem_cons_of_mem _ he'))
      (t₀.insert e.1 e.2)
    refine ⟨t, ?_, hholds.cons hnew⟩
    rw [List.map_cons, List.foldlM_cons]
    refine bind_eq_ok.mpr ⟨_, bind_eq_ok.mpr ⟨(), require_eq_ok.mpr ?_,
      bind_eq_ok.mpr ⟨(), checkIncreasing_eq_ok _ (by simp) hsorted, rfl⟩⟩, hfold⟩
    simpa using hne

/-- What is written of a table in order is read back with the same lookups. -/
theorem restoreKeys_persistKeys {t : Table NodeId (List KeyEntry)} (h : Ordered t) :
    ∃ t', restoreKeys (persistKeys t) = .ok t' ∧ t'.Same t := by
  obtain ⟨t', hfold, hholds⟩ := restoreKeys_listed (nodup_sortedEntries t)
    (fun e he => h e.1 e.2 (mem_sortedEntries.mp he)) ∅
  exact ⟨t', hfold, hholds.same⟩

/-- An empty list of entries is not read back. -/
theorem ne_nil_of_restoreKeys {t t' : Table NodeId (List KeyEntry)}
    (h : restoreKeys (persistKeys t) = .ok t') (id : NodeId) : t.get? id ≠ some [] := by
  intro hid
  have hmem : (⟨id, []⟩ : PersistedValidator) ∈ (persistKeys t).validators :=
    List.mem_map.mpr ⟨(id, []), mem_sortedEntries.mpr hid, rfl⟩
  obtain ⟨_, _, hstep⟩ := ok_of_foldlM h hmem
  obtain ⟨_, hrefused, -⟩ := bind_eq_ok.mp hstep
  cases hrefused

theorem BlsKeyHistory.fromPersisted_toPersisted {h : BlsKeyHistory} (ho : Ordered h.byStableId) :
    ∃ h', fromPersisted h.toPersisted = .ok h' ∧ h'.Alike h := by
  obtain ⟨t, ht, hs⟩ := restoreKeys_persistKeys ho
  refine ⟨⟨t⟩, ?_, hs⟩
  unfold fromPersisted toPersisted
  rw [ht]
  rfl

theorem OperatorKeyHistory.fromPersisted_toPersisted {h : OperatorKeyHistory}
    (ho : Ordered h.byStableId) : ∃ h', fromPersisted h.toPersisted = .ok h' ∧ h'.Alike h := by
  obtain ⟨t, ht, hs⟩ := restoreKeys_persistKeys ho
  refine ⟨⟨t⟩, ?_, hs⟩
  unfold fromPersisted toPersisted
  rw [ht]
  rfl

namespace ValidatorKeyHistory

/-- The first key of every validator is its id, and the index has the owner of every key. -/
structure InOrder (h : ValidatorKeyHistory) : Prop where
  ordered : Ordered h.byStableId
  first : ∀ id entries, h.byStableId.get? id = some entries →
    entries.head?.map KeyEntry.key = some id
  owner : ∀ key id, h.pubkeyToStableId.get? key = some id ↔
    ∃ entries, h.byStableId.get? id = some entries ∧ key ∈ entries.map KeyEntry.key

theorem claimKeys_eq_ok {stableId : NodeId} (owners : Table NodeId NodeId) (prev : Option ℕ)
    {entries : List KeyEntry} (hprev : ∀ p ∈ prev, ∀ e ∈ entries, p < e.vEff)
    (hsorted : entries.Pairwise fun e e' => e.vEff < e'.vEff)
    (hfree : ∀ e ∈ entries, ∀ owner ∈ owners.get? e.key, owner = stableId) :
    ∃ owners', claimKeys stableId owners prev entries = .ok owners' ∧
      ∀ key, owners'.get? key =
        if key ∈ entries.map KeyEntry.key then some stableId else owners.get? key := by
  induction entries generalizing owners prev with
  | nil => exact ⟨owners, rfl, by simp⟩
  | cons e entries ih =>
    obtain ⟨hlt, hrest⟩ := List.pairwise_cons.mp hsorted
    have hfree' : ∀ e' ∈ entries,
        ∀ owner ∈ Table.get? (owners.insert e.key stableId) e'.key, owner = stableId := by
      intro e' he' owner howner
      rw [Table.get?_insert] at howner
      split_ifs at howner
      · exact (Option.some.inj howner).symm
      · exact hfree e' (List.mem_cons_of_mem _ he') owner howner
    have hlater : ∀ p ∈ some e.vEff, ∀ e' ∈ entries, p < e'.vEff := by
      intro p hp
      obtain rfl := Option.some.inj hp
      exact hlt
    obtain ⟨owners', hclaim, hget⟩ := ih _ _ hlater hrest hfree'
    have howner : (owners.get? e.key).getD stableId = stableId := by
      cases ho : owners.get? e.key with
      | none => rfl
      | some owner => exact hfree e (List.mem_cons_self ..) owner ho
    refine ⟨owners', ?_, ?_⟩
    · refine bind_eq_ok.mpr ⟨(), require_eq_ok.mpr ?_,
        bind_eq_ok.mpr ⟨(), require_eq_ok.mpr (decide_eq_true howner), hclaim⟩⟩
      cases prev with
      | none => rfl
      | some p =>
        have hp := hprev p rfl e (List.mem_cons_self ..)
        simpa using hp
    · intro key
      rw [hget, Table.get?_insert, List.map_cons]
      by_cases hk : key ∈ entries.map KeyEntry.key
      · rw [if_pos hk, if_pos (List.mem_cons_of_mem _ hk)]
      · by_cases he : key = e.key
        · rw [if_neg hk, if_pos he, if_pos (he ▸ List.mem_cons_self ..)]
        · rw [if_neg hk, if_neg he, if_neg (by simp [he, hk])]

/-- The decoder takes listed validators in order whose keys are all different and free. -/
theorem fromPersisted_listed {listed : List (NodeId × List KeyEntry)}
    (hnodup : (listed.map Prod.fst).Nodup)
    (hordered : ∀ e ∈ listed, e.2 ≠ [] ∧ e.2.Pairwise fun a b => a.vEff < b.vEff)
    (hfirst : ∀ e ∈ listed, e.2.head?.map KeyEntry.key = some e.1)
    (hdistinct : ∀ e ∈ listed, ∀ e' ∈ listed, ∀ key ∈ e.2.map KeyEntry.key,
      key ∈ e'.2.map KeyEntry.key → e.1 = e'.1)
    (h₀ : ValidatorKeyHistory)
    (hfree : ∀ e ∈ listed, ∀ key ∈ e.2.map KeyEntry.key, h₀.pubkeyToStableId.get? key = none) :
    ∃ h, (listed.map fun e => (⟨e.1, e.2⟩ : PersistedValidator)).foldlM
        (fun (h : ValidatorKeyHistory) v => do
          let first ← okOr v.entries.head? (PersistedKeyError.noEntries v.stableId)
          require (first.key = v.stableId) (.firstKeyMismatch v.stableId first.key)
          let owners ← claimKeys v.stableId h.pubkeyToStableId none v.entries
          return ⟨h.byStableId.insert v.stableId v.entries, owners⟩) h₀ = .ok h ∧
      Holds h.byStableId h₀.byStableId listed ∧
      (∀ e ∈ listed, ∀ key ∈ e.2.map KeyEntry.key, h.pubkeyToStableId.get? key = some e.1) ∧
      ∀ key, (∀ e ∈ listed, key ∉ e.2.map KeyEntry.key) →
        h.pubkeyToStableId.get? key = h₀.pubkeyToStableId.get? key := by
  induction listed generalizing h₀ with
  | nil => exact ⟨h₀, rfl, by simp [Holds], by simp, by simp⟩
  | cons e listed ih =>
    obtain ⟨hnew, hnodup⟩ := List.nodup_cons.mp hnodup
    obtain ⟨hne, hsorted⟩ := hordered e (List.mem_cons_self ..)
    have hmine := hfree e (List.mem_cons_self ..)
    obtain ⟨owners, hclaim, hget⟩ := claimKeys_eq_ok h₀.pubkeyToStableId none
      (by simp) hsorted (by
        intro x hx owner howner
        rw [hmine x.key (List.mem_map_of_mem hx)] at howner
        cases howner)
    have hother : ∀ e' ∈ listed, ∀ key ∈ e'.2.map KeyEntry.key, key ∉ e.2.map KeyEntry.key := by
      intro e' he' key hkey hkey'
      have hid := hdistinct e (List.mem_cons_self ..) e' (List.mem_cons_of_mem _ he') key hkey' hkey
      exact hnew (hid ▸ List.mem_map_of_mem he')
    obtain ⟨h, hfold, hholds, hown, hrest⟩ := ih hnodup
      (fun e' he' => hordered e' (List.mem_cons_of_mem _ he'))
      (fun e' he' => hfirst e' (List.mem_cons_of_mem _ he'))
      (fun e' he' e'' he'' => hdistinct e' (List.mem_cons_of_mem _ he') e''
        (List.mem_cons_of_mem _ he''))
      ⟨h₀.byStableId.insert e.1 e.2, owners⟩ (by
        intro e' he' key hkey
        rw [hget, if_neg (hother e' he' key hkey)]
        exact hfree e' (List.mem_cons_of_mem _ he') key hkey)
    obtain ⟨x, hx, hxkey⟩ := Option.map_eq_some_iff.mp (hfirst e (List.mem_cons_self ..))
    refine ⟨h, ?_, hholds.cons hnew, ?_, ?_⟩
    · rw [List.map_cons, List.foldlM_cons]
      refine bind_eq_ok.mpr ⟨_, bind_eq_ok.mpr ⟨x, okOr_eq_ok.mpr hx, bind_eq_ok.mpr
        ⟨(), require_eq_ok.mpr (decide_eq_true hxkey), bind_eq_ok.mpr ⟨owners, hclaim, rfl⟩⟩⟩,
        hfold⟩
    · intro e' he' key hkey
      rcases List.mem_cons.mp he' with rfl | he'
      · rw [hrest key fun e'' he'' hkey'' => hother e'' he'' key hkey'' hkey, hget, if_pos hkey]
      · exact hown e' he' key hkey
    · intro key hkey
      rw [hrest key fun e' he' => hkey e' (List.mem_cons_of_mem _ he'), hget,
        if_neg (hkey e (List.mem_cons_self ..))]

/-- What is written of a history of signing keys in order is read back with the same lookups. -/
theorem fromPersisted_toPersisted {h : ValidatorKeyHistory} (ho : h.InOrder) :
    ∃ h', fromPersisted h.toPersisted = .ok h' ∧ h'.Alike h := by
  have hmem : ∀ e ∈ sortedEntries h.byStableId, h.byStableId.get? e.1 = some e.2 :=
    fun e he => mem_sortedEntries.mp he
  obtain ⟨h', hfold, hholds, hown, hrest⟩ := fromPersisted_listed (nodup_sortedEntries _)
    (fun e he => ho.ordered e.1 e.2 (hmem e he)) (fun e he => ho.first e.1 e.2 (hmem e he))
    (by
      intro e he e' he' key hkey hkey'
      have howner := (ho.owner key e.1).mpr ⟨e.2, hmem e he, hkey⟩
      have howner' := (ho.owner key e'.1).mpr ⟨e'.2, hmem e' he', hkey'⟩
      exact Option.some.inj (howner.symm.trans howner'))
    ⟨∅, ∅⟩ (fun _ _ _ _ => Table.get?_empty _)
  refine ⟨h', hfold, hholds.same, ?_⟩
  intro key
  cases hk : h.pubkeyToStableId.get? key with
  | some id =>
    obtain ⟨entries, he, hkey⟩ := (ho.owner key id).mp hk
    exact hown (id, entries) (mem_sortedEntries.mpr he) key hkey
  | none =>
    rw [hrest key, Table.get?_empty]
    intro e he hkey
    have howner := (ho.owner key e.1).mpr ⟨e.2, hmem e he, hkey⟩
    rw [hk] at howner
    cases howner

/-- No key is entered for two validators. -/
def Apart (h : ValidatorKeyHistory) : Prop :=
  ∀ id id' entries entries' key, h.byStableId.get? id = some entries →
    h.byStableId.get? id' = some entries' → key ∈ entries.map KeyEntry.key →
    key ∈ entries'.map KeyEntry.key → id = id'

theorem claimKeys_claims {stableId : NodeId} {owners owners' : Table NodeId NodeId}
    {prev : Option ℕ} {entries : List KeyEntry}
    (h : claimKeys stableId owners prev entries = .ok owners') :
    (∀ key ∈ entries.map KeyEntry.key, owners'.get? key = some stableId) ∧
      ∀ key id, owners.get? key = some id → owners'.get? key = some id := by
  induction entries generalizing owners prev with
  | nil =>
    rw [← Except.ok.inj h]
    exact ⟨by simp, fun _ _ hk => hk⟩
  | cons e entries ih =>
    obtain ⟨_, -, h⟩ := bind_eq_ok.mp h
    obtain ⟨_, howner, h⟩ := bind_eq_ok.mp h
    have hfree := of_decide_eq_true (require_eq_ok.mp howner)
    obtain ⟨hclaimed, hkept⟩ := ih h
    refine ⟨?_, ?_⟩
    · intro key hkey
      rcases List.mem_cons.mp hkey with rfl | hkey
      · exact hkept _ _ (Table.get?_insert_self ..)
      · exact hclaimed key hkey
    · intro key id hk
      apply hkept
      rw [Table.get?_insert]
      split_ifs with he
      · rw [← he, hk] at hfree
        exact congrArg some hfree.symm
      · exact hk

/-- Histories that can be read back keep the keys of validators apart. -/
theorem apart_of_fromPersisted {h h' : ValidatorKeyHistory}
    (hread : fromPersisted h.toPersisted = .ok h') : h.Apart := by
  have hindex : ∀ (vs : List PersistedValidator) (h₀ : ValidatorKeyHistory),
      vs.foldlM (fun (h : ValidatorKeyHistory) v => do
          let first ← okOr v.entries.head? (PersistedKeyError.noEntries v.stableId)
          require (first.key = v.stableId) (.firstKeyMismatch v.stableId first.key)
          let owners ← claimKeys v.stableId h.pubkeyToStableId none v.entries
          return ⟨h.byStableId.insert v.stableId v.entries, owners⟩) h₀ = .ok h' →
      (∀ v ∈ vs, ∀ key ∈ v.entries.map KeyEntry.key,
        h'.pubkeyToStableId.get? key = some v.stableId) ∧
      ∀ key id, h₀.pubkeyToStableId.get? key = some id →
        h'.pubkeyToStableId.get? key = some id := by
    intro vs
    induction vs with
    | nil =>
      intro h₀ hfold
      rw [← Except.ok.inj hfold]
      exact ⟨by simp, fun _ _ hk => hk⟩
    | cons v vs ih =>
      intro h₀ hfold
      rw [List.foldlM_cons] at hfold
      obtain ⟨next, hstep, hfold⟩ := bind_eq_ok.mp hfold
      obtain ⟨first, -, hstep⟩ := bind_eq_ok.mp hstep
      obtain ⟨_, -, hstep⟩ := bind_eq_ok.mp hstep
      obtain ⟨owners, hclaim, hstep⟩ := bind_eq_ok.mp hstep
      rw [← Except.ok.inj hstep] at hfold
      obtain ⟨hclaimed, hkept⟩ := claimKeys_claims hclaim
      obtain ⟨hrest, hstays⟩ := ih _ hfold
      refine ⟨?_, fun key id hk => hstays key id (hkept key id hk)⟩
      intro v' hv' key hkey
      rcases List.mem_cons.mp hv' with rfl | hv'
      · exact hstays key _ (hclaimed key hkey)
      · exact hrest v' hv' key hkey
  intro id id' entries entries' key he he' hkey hkey'
  have hread := hindex _ _ hread
  have howner := hread.1 ⟨id, entries⟩
    (List.mem_map.mpr ⟨(id, entries), mem_sortedEntries.mpr he, rfl⟩) key hkey
  have howner' := hread.1 ⟨id', entries'⟩
    (List.mem_map.mpr ⟨(id', entries'), mem_sortedEntries.mpr he', rfl⟩) key hkey'
  exact Option.some.inj (howner.symm.trans howner')

/-- Entries in order whose keys are apart are read back. -/
theorem fromPersisted_of_apart {h : ValidatorKeyHistory} (ho : Ordered h.byStableId)
    (hfirst : ∀ id entries, h.byStableId.get? id = some entries →
      entries.head?.map KeyEntry.key = some id) (ha : h.Apart) :
    ∃ h', fromPersisted h.toPersisted = .ok h' ∧ h'.byStableId.Same h.byStableId := by
  have hmem : ∀ e ∈ sortedEntries h.byStableId, h.byStableId.get? e.1 = some e.2 :=
    fun e he => mem_sortedEntries.mp he
  obtain ⟨h', hfold, hholds, -, -⟩ := fromPersisted_listed (nodup_sortedEntries _)
    (fun e he => ho e.1 e.2 (hmem e he)) (fun e he => hfirst e.1 e.2 (hmem e he))
    (fun e he e' he' key hkey hkey' =>
      ha e.1 e'.1 e.2 e'.2 key (hmem e he) (hmem e' he') hkey hkey')
    ⟨∅, ∅⟩ (fun _ _ _ _ => Table.get?_empty _)
  exact ⟨h', hfold, hholds.same⟩

end ValidatorKeyHistory

end Boule
