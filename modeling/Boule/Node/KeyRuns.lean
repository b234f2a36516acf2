import Boule.Node.LiveKeys

/-! Runs of calls to a history of signing keys: what they keep, and which cancels break it. -/
namespace Boule

namespace ValidatorKeyHistory

inductive Call where
  | addValidator (pubkey : NodeId) (vEff : ℕ)
  | applyRotation (rotation : ValidatorKeyRotation) (commitView : ℕ)
  | cancelPendingRotation (validator : NodeId) (cancellingVEff commitView : ℕ)

def outcome (h : ValidatorKeyHistory) : Call → Except HistoryError ValidatorKeyHistory
  | .addValidator pubkey vEff => h.addValidator pubkey vEff
  | .applyRotation rotation commitView => h.applyRotation rotation commitView
  | .cancelPendingRotation validator cancellingVEff commitView =>
    h.cancelPendingRotation validator cancellingVEff commitView

/-- The history after a call; one that fails changes nothing. -/
def call (h : ValidatorKeyHistory) (c : Call) : ValidatorKeyHistory := keepOnError (h.outcome c) h

/-- The entries of every validator start with its id and are at larger and larger views, the index
has exactly their keys and gives the owner of each, and what is written is read back. -/
structure Coherent (h : ValidatorKeyHistory) : Prop where
  ordered : Ordered h.byStableId
  first : ∀ id entries, h.byStableId.get? id = some entries →
    entries.head?.map KeyEntry.key = some id
  indexed : ∀ key, (∃ id, h.pubkeyToStableId.get? key = some id) ↔
    ∃ id entries, h.byStableId.get? id = some entries ∧ key ∈ entries.map KeyEntry.key
  owner : ∀ id entries, h.byStableId.get? id = some entries →
    ∀ key ∈ entries.map KeyEntry.key, h.pubkeyToStableId.get? key = some id
  apart : h.Apart
  reload : ∃ h', fromPersisted h.toPersisted = .ok h' ∧ h'.Alike h

theorem coherent_iff {h : ValidatorKeyHistory} : h.Coherent ↔ h.InOrder := by
  constructor
  · intro hc
    refine ⟨hc.ordered, hc.first, fun key id => ⟨fun hk => ?_, ?_⟩⟩
    · obtain ⟨id', entries, he, hmem⟩ := (hc.indexed key).mp ⟨id, hk⟩
      have howner := hc.owner id' entries he key hmem
      rw [hk] at howner
      obtain rfl := Option.some.inj howner
      exact ⟨entries, he, hmem⟩
    · rintro ⟨entries, he, hmem⟩
      exact hc.owner id entries he key hmem
  · intro ho
    have howner : ∀ id entries, h.byStableId.get? id = some entries →
        ∀ key ∈ entries.map KeyEntry.key, h.pubkeyToStableId.get? key = some id :=
      fun id entries he key hmem => (ho.owner key id).mpr ⟨entries, he, hmem⟩
    refine ⟨ho.ordered, ho.first, fun key => exists_congr fun id => ho.owner key id, howner, ?_,
      fromPersisted_toPersisted ho⟩
    intro id id' entries entries' key he he' hmem hmem'
    have hsame := (howner id entries he key hmem).symm.trans (howner id' entries' he' key hmem')
    exact Option.some.inj hsame

/-- A cancel that is carried out takes back neither the only entry of a validator nor a key that
the validator has had before. -/
def Reversible (h : ValidatorKeyHistory) : Call → Prop
  | .cancelPendingRotation validator cancellingVEff commitView =>
    ∀ id entries last, h.pubkeyToStableId.get? validator = some id →
      h.byStableId.get? id = some entries → entries.getLast? = some last →
      last.vEff = cancellingVEff → commitView < cancellingVEff →
      entries.dropLast ≠ [] ∧ last.key ∉ entries.dropLast.map KeyEntry.key
  | _ => True

end ValidatorKeyHistory

/-! ### Entries of one validator that are replaced -/

theorem Ordered.insert {t : Table NodeId (List KeyEntry)} (h : Ordered t) {id : NodeId}
    {entries : List KeyEntry} (hne : entries ≠ [])
    (hsorted : entries.Pairwise fun e e' => e.vEff < e'.vEff) : Ordered (t.insert id entries) := by
  intro id' entries' he
  rw [Table.get?_insert] at he
  split_ifs at he
  · obtain rfl := Option.some.inj he
    exact ⟨hne, hsorted⟩
  · exact h id' entries' he

theorem keys_of_getLast? {entries : List KeyEntry} {last : KeyEntry}
    (h : entries.getLast? = some last) (key : ℕ) : key ∈ entries.map KeyEntry.key ↔
      key ∈ entries.dropLast.map KeyEntry.key ∨ key = last.key := by
  obtain ⟨init, rfl⟩ := List.getLast?_eq_some_iff.mp h
  rw [List.dropLast_concat, List.map_append, List.mem_append, List.map_singleton,
    List.mem_singleton]

namespace ValidatorKeyHistory

/-- One validator has other entries that start with its id, and the index follows. -/
theorem InOrder.replace {h : ValidatorKeyHistory} (ho : h.InOrder) {id : NodeId}
    {entries : List KeyEntry} (hne : entries ≠ [])
    (hsorted : entries.Pairwise fun e e' => e.vEff < e'.vEff)
    (hfirst : entries.head?.map KeyEntry.key = some id) {index : Table NodeId NodeId}
    (hown : ∀ key, index.get? key = some id ↔ key ∈ entries.map KeyEntry.key)
    (hother : ∀ key id', id' ≠ id →
      (index.get? key = some id' ↔ h.pubkeyToStableId.get? key = some id')) :
    InOrder ⟨h.byStableId.insert id entries, index⟩ where
  ordered := ho.ordered.insert hne hsorted
  first := by
    intro id' entries' he
    rw [Table.get?_insert] at he
    split_ifs at he with hid
    · obtain rfl := Option.some.inj he
      rw [hid]
      exact hfirst
    · exact ho.first id' entries' he
  owner := by
    intro key id'
    simp only [Table.get?_insert]
    by_cases hid : id' = id
    · subst hid
      rw [hown]
      simp
    · rw [hother key id' hid, if_neg hid]
      exact ho.owner key id'

theorem InOrder.get?_of_index_none {h : ValidatorKeyHistory} (ho : h.InOrder) {id : NodeId}
    (hnone : h.pubkeyToStableId.get? id = none) : h.byStableId.get? id = none := by
  cases he : h.byStableId.get? id with
  | none => rfl
  | some entries =>
    obtain ⟨e, hhead, hkey⟩ := Option.map_eq_some_iff.mp (ho.first id entries he)
    have hmem : id ∈ entries.map KeyEntry.key :=
      List.mem_map.mpr ⟨e, List.mem_of_mem_head? hhead, hkey⟩
    rw [(ho.owner id id).mpr ⟨entries, he, hmem⟩] at hnone
    cases hnone

theorem InOrder.addValidator {h h' : ValidatorKeyHistory} (ho : h.InOrder) {pubkey vEff : ℕ}
    (ha : h.addValidator pubkey vEff = .ok h') : h'.InOrder := by
  obtain ⟨_, hfree, ha⟩ := bind_eq_ok.mp ha
  have hnone := refuse_eq_ok.mp hfree
  have hnew := ho.get?_of_index_none hnone
  rw [← Except.ok.inj ha]
  refine ho.replace (List.cons_ne_nil (⟨vEff, pubkey⟩ : KeyEntry) [])
    (List.pairwise_singleton _ _) rfl (fun key => ?_) fun key id' hid => ?_
  · rw [Table.get?_insert, List.map_singleton, List.mem_singleton]
    split_ifs with hkey
    · exact iff_of_true rfl hkey
    · refine iff_of_false (fun hk => ?_) hkey
      obtain ⟨entries, he, -⟩ := (ho.owner key pubkey).mp hk
      rw [hnew] at he
      cases he
  · rw [Table.get?_insert]
    split_ifs with hkey
    · rw [hkey, hnone]
      exact iff_of_false (fun hs => hid (Option.some.inj hs).symm) fun hs => by cases hs
    · exact Iff.rfl

theorem InOrder.applyRotation {h h' : ValidatorKeyHistory} (ho : h.InOrder)
    {rotation : ValidatorKeyRotation} {commitView : ℕ}
    (ha : h.applyRotation rotation commitView = .ok h') : h'.InOrder := by
  obtain ⟨id, entries, last, -, hfree, he, hl, hlt, rfl⟩ := applyRotation_eq_ok ha
  obtain ⟨hne, hsorted⟩ := ho.ordered id entries he
  refine ho.replace (by simp) (pairwise_give hsorted hl hlt) ?_ (fun key => ?_)
    fun key id' hid => ?_
  · rw [List.head?_append, Option.map_or, ho.first id entries he]
    rfl
  · rw [Table.get?_insert, List.map_append, List.mem_append, List.map_singleton,
      List.mem_singleton]
    split_ifs with hkey
    · exact iff_of_true rfl (.inr hkey)
    · rw [or_iff_left hkey, ho.owner key id, he]
      simp
  · rw [Table.get?_insert]
    split_ifs with hkey
    · subst hkey
      exact iff_of_false (fun hs => hid (Option.some.inj hs).symm) fun hs => hid (hfree id' hs)
    · exact Iff.rfl

/-- A cancel keeps the order exactly when the validator still has entries, without the key. -/
theorem InOrder.cancel_iff {h : ValidatorKeyHistory} (ho : h.InOrder) {id : NodeId}
    {entries : List KeyEntry} {last : KeyEntry} (he : h.byStableId.get? id = some entries)
    (hl : entries.getLast? = some last) :
    InOrder ⟨h.byStableId.insert id entries.dropLast, h.pubkeyToStableId.erase last.key⟩ ↔
      entries.dropLast ≠ [] ∧ last.key ∉ entries.dropLast.map KeyEntry.key := by
  constructor
  · intro hcancelled
    refine ⟨(hcancelled.ordered id _ (Table.get?_insert_self ..)).1, fun hmem => ?_⟩
    have howner := (hcancelled.owner last.key id).mpr ⟨_, Table.get?_insert_self .., hmem⟩
    rw [Table.get?_erase, if_pos rfl] at howner
    cases howner
  · rintro ⟨hne, hfresh⟩
    obtain ⟨-, hsorted⟩ := ho.ordered id entries he
    have hlast : h.pubkeyToStableId.get? last.key = some id :=
      (ho.owner last.key id).mpr ⟨entries, he, (keys_of_getLast? hl _).mpr (.inr rfl)⟩
    refine ho.replace hne (hsorted.sublist (List.dropLast_sublist entries)) ?_ (fun key => ?_)
      fun key id' hid => ?_
    · have hfirst := ho.first id entries he
      obtain ⟨init, rfl⟩ := List.getLast?_eq_some_iff.mp hl
      rw [List.dropLast_concat] at hne ⊢
      rw [List.head?_append_of_ne_nil _ hne] at hfirst
      exact hfirst
    · rw [Table.get?_erase]
      split_ifs with hkey
      · rw [hkey]
        exact iff_of_false (fun hs => by cases hs) hfresh
      · have hkeys := keys_of_getLast? hl key
        rw [or_iff_left hkey] at hkeys
        rw [ho.owner key id, he, ← hkeys]
        simp
    · rw [Table.get?_erase]
      split_ifs with hkey
      · rw [hkey, hlast]
        exact iff_of_false (fun hs => by cases hs) fun hs => hid (Option.some.inj hs).symm
      · exact Iff.rfl

/-! ### Runs -/

theorem inOrder_call_iff {h : ValidatorKeyHistory} (ho : h.InOrder) (c : Call) :
    (h.call c).InOrder ↔ h.Reversible c := by
  cases c with
  | addValidator pubkey vEff =>
    refine iff_of_true ?_ trivial
    simp only [call, outcome]
    cases ha : h.addValidator pubkey vEff with
    | error e => exact ho
    | ok h' => exact ho.addValidator ha
  | applyRotation rotation commitView =>
    refine iff_of_true ?_ trivial
    simp only [call, outcome]
    cases ha : h.applyRotation rotation commitView with
    | error e => exact ho
    | ok h' => exact ho.applyRotation ha
  | cancelPendingRotation validator cancellingVEff commitView =>
    simp only [call, outcome]
    cases hc : h.cancelPendingRotation validator cancellingVEff commitView with
    | error e =>
      refine iff_of_true ho fun id entries last hid he hl hv hlt => ?_
      have hok : h.cancelPendingRotation validator cancellingVEff commitView =
          .ok ⟨h.byStableId.insert id entries.dropLast, h.pubkeyToStableId.erase last.key⟩ :=
        cancelPendingRotation_eq_ok.mpr ⟨id, entries, last, hid, he, hl, hv, hlt, rfl⟩
      rw [hok] at hc
      cases hc
    | ok h' =>
      obtain ⟨id, entries, last, hid, he, hl, hv, hlt, rfl⟩ := cancelPendingRotation_eq_ok.mp hc
      refine (ho.cancel_iff he hl).trans ⟨fun hkept => ?_, fun hr => ?_⟩
      · intro id' entries' last' hid' he' hl' _ _
        obtain rfl := Option.some.inj (hid.symm.trans hid')
        obtain rfl := Option.some.inj (he.symm.trans he')
        obtain rfl := Option.some.inj (hl.symm.trans hl')
        exact hkept
      · exact hr id entries last hid he hl hv hlt

theorem get?_newEntries (genesis : List ValidatorId) (t : Table NodeId (List KeyEntry))
    (id : NodeId) : (genesis.foldl (fun t v => register t v 0 v) t).get? id =
      (t.get? id).or (if id ∈ genesis then some [⟨0, id⟩] else none) := by
  have hmap : genesis.foldl (fun t v => register t v 0 v) t =
      (genesis.map fun m => (0, m)).foldl (fun t (s : ℕ × NodeId) => register t s.2 s.1 s.2) t := by
    rw [List.foldl_map]
  rw [hmap]
  exact get?_register_members genesis t id

theorem get?_newIndex (genesis : List ValidatorId) (t : Table NodeId NodeId) (key : NodeId) :
    (genesis.foldl (fun t v => t.insert v v) t).get? key =
      if key ∈ genesis then some key else t.get? key := by
  have hmap : genesis.foldl (fun t v => t.insert v v) t =
      (genesis.map fun m => (0, m)).foldl (fun t (s : ℕ × NodeId) => t.insert s.2 s.2) t := by
    rw [List.foldl_map]
  rw [hmap]
  exact get?_index_foldl genesis t key

theorem entries_new (genesis : List ValidatorId) (id : NodeId) :
    (new genesis).byStableId.get? id = if id ∈ genesis then some [⟨0, id⟩] else none := by
  rw [new, get?_newEntries, Table.get?_empty, Option.none_or]

theorem index_new (genesis : List ValidatorId) (key : NodeId) :
    (new genesis).pubkeyToStableId.get? key = if key ∈ genesis then some key else none := by
  rw [new, get?_newIndex, Table.get?_empty]

theorem inOrder_new (genesis : List ValidatorId) : (new genesis).InOrder := by
  constructor
  · intro id entries he
    rw [entries_new] at he
    split_ifs at he
    obtain rfl := Option.some.inj he
    exact ⟨List.cons_ne_nil _ _, List.pairwise_singleton _ _⟩
  · intro id entries he
    rw [entries_new] at he
    split_ifs at he
    obtain rfl := Option.some.inj he
    rfl
  · intro key id
    rw [index_new, entries_new]
    constructor
    · intro hk
      split_ifs at hk with hmem
      obtain rfl := Option.some.inj hk
      rw [if_pos hmem]
      exact ⟨_, rfl, List.mem_singleton_self key⟩
    · rintro ⟨entries, he, hkey⟩
      split_ifs at he with hmem
      obtain rfl := Option.some.inj he
      obtain rfl := List.mem_singleton.mp hkey
      exact if_pos hmem

/-- A run keeps the history coherent exactly as long as every cancel that is carried out is
reversible. -/
theorem coherent_iff_reversible (genesis : List ValidatorId) (calls : List Call) :
    (∀ k, (run call (new genesis) (calls.take k)).Coherent) ↔
      Along call Reversible (new genesis) calls := by
  simp only [coherent_iff]
  exact along_iff_of_step (I := InOrder) (fun _ c ho => inOrder_call_iff ho c)
    (inOrder_new genesis)

end ValidatorKeyHistory

namespace Sample
open ValidatorKeyHistory

/-- A validator is added from view 5 on, and its only entry is taken back in view 3. -/
def takenBack : List Call := [.addValidator 9 5, .cancelPendingRotation 9 5 3]

/-- A validator goes from its first key to another one and back, and cancels the way back. -/
def thereAndBack : List Call :=
  [.applyRotation ⟨1, 7, 5, none, none⟩ 0, .applyRotation ⟨7, 1, 9, none, none⟩ 0,
    .cancelPendingRotation 7 9 0]

theorem cancels_break :
    ¬ (run call (new [1]) takenBack).Coherent ∧ ¬ (run call (new [1]) thereAndBack).Coherent := by
  constructor
  · intro h
    have he : (run call (new [1]) takenBack).byStableId.get? 9 = some [] := by decide
    exact (h.ordered 9 [] he).1 rfl
  · intro h
    have he : (run call (new [1]) thereAndBack).byStableId.get? 1 = some [⟨0, 1⟩, ⟨5, 7⟩] := by
      decide
    have hk : (run call (new [1]) thereAndBack).pubkeyToStableId.get? 1 = none := by decide
    cases (h.owner 1 _ he 1 (by decide)).symm.trans hk

end Sample

end Boule
