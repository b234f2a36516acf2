import Boule.Node.Rotations
import Mathlib.Data.List.Pairwise

/-! The keys that accepted commands give to validators, and a node's histories as a record of
them. -/
namespace Boule
open ConsensusNode

/-- A change of keys by an accepted command. -/
inductive KeyChange where
  | seat (cmd : ReconfigCommand) (newSet : ValidatorSet)
  | rotate (validator : ValidatorId) (rotation : ValidatorKeyRotation)
  | withdraw (validator : ValidatorId) (vEff : ℕ)
  deriving DecidableEq

/-- The keys of one kind, for each validator in the order in which they were given. -/
abbrev KeyAssignment := NodeId → List KeyEntry

namespace KeyAssignment

/-- The last given key whose view has come. -/
def activeAt (a : KeyAssignment) (id : NodeId) (view : ℕ) : Option ℕ :=
  ((a id).filter fun e => e.vEff ≤ view).getLast?.map KeyEntry.key

def give (a : KeyAssignment) (id : NodeId) (vEff key : ℕ) : KeyAssignment :=
  Function.update a id (a id ++ [⟨vEff, key⟩])

/-- The last key is taken back when it was to be active from `vEff` on. -/
def withdraw (a : KeyAssignment) (id : NodeId) (vEff : ℕ) : KeyAssignment :=
  if (a id).getLast?.any fun e => e.vEff = vEff then Function.update a id (a id).dropLast else a

/-- Whether the last key is this one, and active by `vEff`. -/
def Holds (a : KeyAssignment) (id : NodeId) (vEff key : ℕ) : Prop :=
  ∃ e ∈ (a id).getLast?, e.key = key ∧ e.vEff ≤ vEff

instance (a : KeyAssignment) (id : NodeId) (vEff key : ℕ) : Decidable (a.Holds id vEff key) :=
  inferInstanceAs (Decidable (∃ e ∈ (a id).getLast?, _))

end KeyAssignment

structure Assigned where
  signing : KeyAssignment
  bls : KeyAssignment

namespace Assigned

/-- Genesis validators sign with their ids. -/
def genesis (cfg : NodeConfig) : Assigned where
  signing := fun id => if id ∈ cfg.validatorSet.members then [⟨0, id⟩] else []
  bls := fun id => ((cfg.genesisBls.reverse.lookup id).map fun key => [⟨0, key⟩]).getD []

/-- A newcomer signs with its id. An added validator gets the BLS key that it has proved to
possess, unless it has that key already. -/
def apply (a : Assigned) : KeyChange → Assigned
  | .seat cmd newSet =>
    { signing := fun id =>
        if id ∈ newSet.members ∧ a.signing id = [] then [⟨cmd.vEff, id⟩] else a.signing id
      bls := fun id =>
        match (blsSeats cmd newSet).lookup id with
        | none => a.bls id
        | some key =>
          if a.bls.Holds id cmd.vEff key then a.bls id else a.bls id ++ [⟨cmd.vEff, key⟩] }
  | .rotate id rotation =>
    { signing := a.signing.give id rotation.vEff rotation.newPubkey
      bls :=
        match rotation.newBlsPubkey with
        | none => a.bls
        | some key => a.bls.give id rotation.vEff key }
  | .withdraw id vEff =>
    { signing := a.signing.withdraw id vEff
      bls := a.bls.withdraw id vEff }

/-- What a node's histories can record: no newcomer and no second proof of possession, BLS keys
in the order of their views, and no withdrawal of a key that the validator has had before. -/
def Heeds (a : Assigned) : KeyChange → Prop
  | .seat cmd newSet =>
    (∀ m ∈ newSet.members, a.signing m ≠ []) ∧
      ∀ s ∈ blsSeats cmd newSet, a.bls s.1 = [] ∨ a.bls.Holds s.1 cmd.vEff s.2
  | .rotate id rotation => ∃ e ∈ (a.bls id).getLast?, e.vEff < rotation.vEff
  | .withdraw id _ =>
    ∀ e ∈ (a.signing id).getLast?, e.key ∉ (a.signing id).dropLast.map KeyEntry.key

instance (a : Assigned) : DecidablePred a.Heeds
  | .seat cmd newSet => inferInstanceAs (Decidable ((∀ m ∈ newSet.members, _) ∧
      ∀ s ∈ blsSeats cmd newSet, _ ∨ a.bls.Holds s.1 cmd.vEff s.2))
  | .rotate id _ => inferInstanceAs (Decidable (∃ e ∈ (a.bls id).getLast?, _))
  | .withdraw id _ => inferInstanceAs (Decidable (∀ e ∈ (a.signing id).getLast?, _))

/-- The entries of a validator are in the order of their views; its first signing key is from
genesis, and later ones come with BLS keys for the same views. -/
structure InStep (a : Assigned) (id : NodeId) : Prop where
  signing : (a.signing id).Pairwise fun e e' => e.vEff < e'.vEff
  bls : (a.bls id).Pairwise fun e e' => e.vEff < e'.vEff
  first : ∀ e ∈ (a.signing id).head?, e.vEff = 0
  tail : (a.signing id).tail.map KeyEntry.vEff = (a.bls id).tail.map KeyEntry.vEff

end Assigned

/-! ### Entries in the order of their views -/

theorem takeWhile_eq_filter_of_sorted {entries : List KeyEntry}
    (h : entries.Pairwise fun e e' => e.vEff < e'.vEff) (view : ℕ) :
    (entries.takeWhile fun e => e.vEff ≤ view) = entries.filter fun e => e.vEff ≤ view := by
  induction entries with
  | nil => rfl
  | cons e entries ih =>
    obtain ⟨hlt, hrest⟩ := List.pairwise_cons.mp h
    by_cases he : e.vEff ≤ view
    · rw [List.takeWhile_cons_of_pos (by simpa using he),
        List.filter_cons_of_pos (by simpa using he), ih hrest]
    · rw [List.takeWhile_cons_of_neg (by simpa using he),
        List.filter_cons_of_neg (by simpa using he)]
      symm
      rw [List.filter_eq_nil_iff]
      intro e' he'
      have hlater := hlt e' he'
      simp only [decide_eq_true_eq]
      omega

theorem keyAt_eq_activeAt {a : KeyAssignment} {id : NodeId}
    (h : (a id).Pairwise fun e e' => e.vEff < e'.vEff) (view : ℕ) :
    keyAt (a id) view = a.activeAt id view := by
  unfold keyAt KeyAssignment.activeAt
  rw [takeWhile_eq_filter_of_sorted h]

theorem mem_of_activeAt {a : KeyAssignment} {id : NodeId} {view key : ℕ}
    (h : a.activeAt id view = some key) : ∃ e ∈ a id, e.key = key := by
  obtain ⟨e, he, hk⟩ := Option.map_eq_some_iff.mp h
  exact ⟨e, (List.mem_filter.mp (List.mem_of_getLast? he)).1, hk⟩

/-- A later entry keeps the order. -/
theorem pairwise_give {entries : List KeyEntry} {last : KeyEntry} {vEff key : ℕ}
    (h : entries.Pairwise fun e e' => e.vEff < e'.vEff) (hl : entries.getLast? = some last)
    (hlt : last.vEff < vEff) :
    (entries ++ [(⟨vEff, key⟩ : KeyEntry)]).Pairwise fun e e' => e.vEff < e'.vEff := by
  rw [List.pairwise_append]
  refine ⟨h, by simp, ?_⟩
  intro e he e' he'
  obtain rfl := List.mem_singleton.mp he'
  obtain ⟨init, rfl⟩ := List.getLast?_eq_some_iff.mp hl
  rcases List.mem_append.mp he with he | he
  · have hbefore := (List.pairwise_append.mp h).2.2 e he last (List.mem_singleton_self _)
    show e.vEff < vEff
    omega
  · obtain rfl := List.mem_singleton.mp he
    exact hlt

namespace Assigned

theorem InStep.seat {a : Assigned} {cmd : ReconfigCommand} {newSet : ValidatorSet}
    (hh : a.Heeds (.seat cmd newSet)) {id : NodeId} (h : a.InStep id) :
    (a.apply (.seat cmd newSet)).signing id = a.signing id ∧
      (a.apply (.seat cmd newSet)).InStep id := by
  have hsigning : (a.apply (.seat cmd newSet)).signing id = a.signing id :=
    if_neg fun hm => hh.1 id hm.1 hm.2
  refine ⟨hsigning, ?_⟩
  have hkept : (a.apply (.seat cmd newSet)).bls id = a.bls id ∨
      a.bls id = [] ∧ ∃ key, (a.apply (.seat cmd newSet)).bls id = [⟨cmd.vEff, key⟩] := by
    simp only [apply]
    cases hl : (blsSeats cmd newSet).lookup id with
    | none => exact .inl rfl
    | some key =>
      by_cases hk : a.bls.Holds id cmd.vEff key
      · exact .inl (if_pos hk)
      · have hmem := List.lookup_eq_some_iff.mp hl
        obtain ⟨before, after, hs, -⟩ := hmem
        have hempty : a.bls id = [] := by
          refine (hh.2 (id, key) ?_).resolve_right hk
          rw [hs]
          simp
        right
        refine ⟨hempty, key, ?_⟩
        simp only [if_neg hk, hempty, List.nil_append]
  constructor
  · rw [hsigning]
    exact h.signing
  · rcases hkept with hb | ⟨-, key, hb⟩ <;> rw [hb]
    · exact h.bls
    · simp
  · rw [hsigning]
    exact h.first
  · rw [hsigning, h.tail]
    rcases hkept with hb | ⟨hempty, key, hb⟩ <;> rw [hb]
    rw [hempty]
    rfl

theorem tail_append_of_ne_nil {α : Type} {xs : List α} (h : xs ≠ []) (ys : List α) :
    (xs ++ ys).tail = xs.tail ++ ys := by
  cases xs with
  | nil => exact absurd rfl h
  | cons x xs => rfl

theorem InStep.rotate {a : Assigned} {id : NodeId} {rotation : ValidatorKeyRotation}
    (hh : a.Heeds (.rotate id rotation)) (hnew : rotation.newBlsPubkey.isSome) {last : KeyEntry}
    (hlast : (a.signing id).getLast? = some last) (hlt : last.vEff < rotation.vEff)
    (h : ∀ id, a.InStep id) (id' : NodeId) : (a.apply (.rotate id rotation)).InStep id' := by
  obtain ⟨pk, hpk⟩ := Option.isSome_iff_exists.mp hnew
  have happly : a.apply (.rotate id rotation) =
      ⟨a.signing.give id rotation.vEff rotation.newPubkey, a.bls.give id rotation.vEff pk⟩ := by
    simp only [apply, hpk]
  rw [happly]
  by_cases hid : id' = id
  · obtain rfl := hid
    obtain ⟨lastBls, hlastBls, hltBls⟩ := hh
    have hb := Option.mem_def.mp hlastBls
    have hne : a.signing id' ≠ [] := by
      intro hn
      rw [hn] at hlast
      cases hlast
    have hneBls : a.bls id' ≠ [] := by
      intro hn
      rw [hn] at hb
      cases hb
    constructor
    · simp only [KeyAssignment.give, Function.update_self]
      exact pairwise_give (h id').signing hlast hlt
    · simp only [KeyAssignment.give, Function.update_self]
      exact pairwise_give (h id').bls hb hltBls
    · simp only [KeyAssignment.give, Function.update_self, List.head?_append_of_ne_nil _ hne]
      exact (h id').first
    · simp only [KeyAssignment.give, Function.update_self, tail_append_of_ne_nil hne,
        tail_append_of_ne_nil hneBls, List.map_append, (h id').tail]
      rfl
  · constructor <;> simp only [KeyAssignment.give, Function.update_of_ne hid]
    · exact (h id').signing
    · exact (h id').bls
    · exact (h id').first
    · exact (h id').tail

/-- A pending key is not the first one, and the BLS key for the same view is pending too. -/
theorem InStep.pending {a : Assigned} {id : NodeId} (h : a.InStep id) {last : KeyEntry}
    (hlast : (a.signing id).getLast? = some last) (hpos : 0 < last.vEff) :
    (a.signing id).dropLast ≠ [] ∧ (a.bls id).dropLast ≠ [] ∧
      ∃ lastBls, (a.bls id).getLast? = some lastBls ∧ lastBls.vEff = last.vEff := by
  obtain ⟨init, hs⟩ := List.getLast?_eq_some_iff.mp hlast
  have hinit : init ≠ [] := by
    rintro rfl
    have hz := h.first last (by rw [hs]; rfl)
    omega
  have htail : (a.bls id).tail.map KeyEntry.vEff =
      init.tail.map KeyEntry.vEff ++ [last.vEff] := by
    rw [← h.tail, hs, tail_append_of_ne_nil hinit, List.map_append]
    rfl
  cases hb : a.bls id with
  | nil =>
    rw [hb] at htail
    simp at htail
  | cons b bs =>
    rw [hb, List.tail_cons] at htail
    have hbs : bs ≠ [] := by
      rintro rfl
      simp at htail
    refine ⟨by rw [hs, List.dropLast_concat]; exact hinit, ?_, bs.getLast hbs, ?_, ?_⟩
    · rw [List.dropLast_cons_of_ne_nil hbs]
      exact List.cons_ne_nil _ _
    · rw [List.getLast?_cons_of_ne_nil hbs, List.getLast?_eq_some_getLast hbs]
    · have hl : (bs.map KeyEntry.vEff).getLast? = some last.vEff := by
        rw [htail, List.getLast?_concat]
      rw [List.getLast?_map, List.getLast?_eq_some_getLast hbs] at hl
      exact Option.some.inj hl

theorem tail_dropLast {α : Type} {xs : List α} (h : xs.dropLast ≠ []) :
    xs.dropLast.tail = xs.tail.dropLast := by
  cases xs with
  | nil => rfl
  | cons x xs =>
    cases xs with
    | nil => exact absurd rfl h
    | cons y ys => rfl

theorem withdraw_eq {a : Assigned} {id : NodeId} (h : a.InStep id) {last : KeyEntry}
    (hlast : (a.signing id).getLast? = some last) (hpos : 0 < last.vEff) :
    a.apply (.withdraw id last.vEff) = ⟨Function.update a.signing id (a.signing id).dropLast,
      Function.update a.bls id (a.bls id).dropLast⟩ := by
  obtain ⟨-, -, lastBls, hb, hv⟩ := h.pending hlast hpos
  simp only [apply, KeyAssignment.withdraw, hlast, hb, Option.any_some, hv, decide_true, if_true]

theorem InStep.withdraw {a : Assigned} {id : NodeId} {last : KeyEntry}
    (hlast : (a.signing id).getLast? = some last) (hpos : 0 < last.vEff)
    (h : ∀ id, a.InStep id) (id' : NodeId) :
    (a.apply (.withdraw id last.vEff)).InStep id' := by
  rw [withdraw_eq (h id) hlast hpos]
  by_cases hid : id' = id
  · obtain rfl := hid
    obtain ⟨hne, hneBls, -⟩ := (h id').pending hlast hpos
    constructor <;> simp only [Function.update_self]
    · exact (h id').signing.sublist (List.dropLast_sublist _)
    · exact (h id').bls.sublist (List.dropLast_sublist _)
    · intro e he
      apply (h id').first e
      rw [List.head?_dropLast] at he
      split_ifs at he
      · exact he
      · cases he
    · rw [tail_dropLast hne, tail_dropLast hneBls, List.map_dropLast, List.map_dropLast,
        (h id').tail]
  · constructor <;> simp only [Function.update_of_ne hid]
    · exact (h id').signing
    · exact (h id').bls
    · exact (h id').first
    · exact (h id').tail

end Assigned

/-! ### The tables of a node -/

/-- The table has the entries of the assignment, and none for who has no keys. -/
def Tabulates (t : Table NodeId (List KeyEntry)) (a : KeyAssignment) : Prop :=
  ∀ id, t.get? id = if a id = [] then none else some (a id)

theorem eq_ite_getD {entries : Option (List KeyEntry)} (h : entries ≠ some []) :
    entries = if entries.getD [] = [] then none else some (entries.getD []) := by
  cases entries with
  | none => rfl
  | some es =>
    have hne : es ≠ [] := fun hn => h (congrArg some hn)
    rw [Option.getD_some, if_neg hne]

theorem Tabulates.of_get? {t : Table NodeId (List KeyEntry)} {a : KeyAssignment} (h : Tabulates t a)
    {id : NodeId} {entries : List KeyEntry} (he : t.get? id = some entries) : a id = entries := by
  rw [h id] at he
  split_ifs at he
  exact Option.some.inj he

theorem Tabulates.get?_of_ne_nil {t : Table NodeId (List KeyEntry)} {a : KeyAssignment}
    (h : Tabulates t a) {id : NodeId} (hne : a id ≠ []) : t.get? id = some (a id) := by
  rw [h id, if_neg hne]

theorem Tabulates.insert {t : Table NodeId (List KeyEntry)} {a : KeyAssignment} (h : Tabulates t a)
    (id : NodeId) {entries : List KeyEntry} (hne : entries ≠ []) :
    Tabulates (t.insert id entries) (Function.update a id entries) := by
  intro id'
  rw [Table.get?_insert]
  by_cases hid : id' = id
  · rw [if_pos hid, hid, Function.update_self, if_neg hne]
  · rw [if_neg hid, Function.update_of_ne hid]
    exact h id'

theorem keyAt_of_tabulates {t : Table NodeId (List KeyEntry)} {a : KeyAssignment}
    (h : Tabulates t a) {id : NodeId} (hs : (a id).Pairwise fun e e' => e.vEff < e'.vEff)
    (view : ℕ) : (t.get? id).bind (keyAt · view) = a.activeAt id view := by
  rw [← keyAt_eq_activeAt hs, h id]
  by_cases hne : a id = []
  · rw [if_pos hne, hne]
    rfl
  · rw [if_neg hne]
    rfl

/-- Only ids without entries are registered, each once. -/
theorem get?_registerAll (t : Table NodeId (List KeyEntry)) (vEff : ℕ)
    (seats : List (NodeId × ℕ)) (id : NodeId) :
    (registerAll t vEff seats).get? id =
      (t.get? id).or ((seats.lookup id).map fun key => [⟨vEff, key⟩]) := by
  unfold registerAll
  induction seats generalizing t with
  | nil => simp
  | cons s seats ih =>
    obtain ⟨id', key⟩ := s
    rw [List.foldl_cons, ih, register]
    by_cases hid : id = id'
    · obtain rfl := hid
      rw [List.lookup_cons_self]
      by_cases hc : t.containsKey id = true
      · obtain ⟨entries, he⟩ := (Table.containsKey_iff t id).mp hc
        rw [if_pos hc, he]
        rfl
      · have he := (Table.containsKey_eq_false_iff t id).mp (by simpa using hc)
        rw [if_neg hc, he, Table.get?_insert_self]
        rfl
    · rw [List.lookup_cons, beq_false_of_ne hid]
      split_ifs
      · rfl
      · rw [Table.get?_insert_of_ne _ hid]

/-- The histories of a node record the keys that were given. -/
structure Registered (h : Histories) (a : Assigned) : Prop where
  signing : Tabulates h.key.byStableId a.signing
  owner : ∀ id, ∀ e ∈ a.signing id, h.key.pubkeyToStableId.get? e.key = some id
  bls : ∃ bls, h.bls = some bls ∧ Tabulates bls.byStableId a.bls
  inStep : ∀ id, a.InStep id

theorem tabulates_registerBlsKeys {bls : BlsKeyHistory} {a : Assigned} {cmd : ReconfigCommand}
    {newSet : ValidatorSet} (hh : a.Heeds (.seat cmd newSet))
    (h : Tabulates bls.byStableId a.bls) :
    Tabulates (registerBlsKeys bls cmd newSet).byStableId (a.apply (.seat cmd newSet)).bls := by
  intro id
  rw [registerBlsKeys_eq, get?_registerAll, h id]
  cases hl : (blsSeats cmd newSet).lookup id with
  | none =>
    have hbls : (a.apply (.seat cmd newSet)).bls id = a.bls id := by
      simp only [Assigned.apply, hl]
    rw [hbls, Option.map_none, Option.or_none]
  | some key =>
    have hbls : (a.apply (.seat cmd newSet)).bls id =
        if a.bls.Holds id cmd.vEff key then a.bls id else a.bls id ++ [⟨cmd.vEff, key⟩] := by
      simp only [Assigned.apply, hl]
    obtain ⟨before, after, hs, -⟩ := List.lookup_eq_some_iff.mp hl
    have hmem : (id, key) ∈ blsSeats cmd newSet := by simp [hs]
    by_cases hk : a.bls.Holds id cmd.vEff key
    · have hne : a.bls id ≠ [] := by
        obtain ⟨e, he, -⟩ := hk
        intro hn
        rw [hn] at he
        cases he
      rw [hbls, if_pos hk, if_neg hne]
      rfl
    · have hempty : a.bls id = [] := (hh.2 _ hmem).resolve_right hk
      rw [hbls, if_neg hk, hempty]
      rfl

section
variable {R : HistoryPrimitives} {chainId : ChainId} {commitView minVEffDelay : ℕ} {a : Assigned}

theorem registered_seat {n : ConsensusNode} {cmd : ReconfigCommand} {newSet : ValidatorSet}
    (hsync : n.core.state.validatorHistory = n.validatorHistory)
    (hlt : n.validatorHistory.last.vEff < cmd.vEff) (hh : a.Heeds (.seat cmd newSet))
    (h : Registered n.histories a) :
    Registered (n.applyReconfig cmd newSet).1.histories (a.apply (.seat cmd newSet)) := by
  have hsame : (a.apply (.seat cmd newSet)).signing = a.signing :=
    funext fun id => ((h.inStep id).seat hh).1
  obtain ⟨bls, hb, htable⟩ := h.bls
  rw [histories_applyReconfig hlt newSet, hsync, if_pos hlt, if_pos hlt]
  constructor
  · rw [hsame]
    exact h.signing
  · rw [hsame]
    exact h.owner
  · refine ⟨registerBlsKeys bls cmd newSet, ?_, tabulates_registerBlsKeys hh htable⟩
    show n.histories.bls.map (fun bls => registerBlsKeys bls cmd newSet) = _
    rw [hb]
    rfl
  · intro id
    exact ((h.inStep id).seat hh).2

theorem rotateBls_of_lt {bls : BlsKeyHistory} {id : NodeId} {rotation : ValidatorKeyRotation}
    {pk : BlsPublicKey} (hpk : rotation.newBlsPubkey = some pk) {entries : List KeyEntry}
    (he : bls.byStableId.get? id = some entries) {last : KeyEntry}
    (hl : entries.getLast? = some last) (hlt : last.vEff < rotation.vEff) :
    rotateBls (some bls) id rotation =
      some ⟨bls.byStableId.insert id (entries ++ [⟨rotation.vEff, pk⟩])⟩ := by
  have happend : appendEntry bls.byStableId id rotation.vEff pk =
      .ok (bls.byStableId.insert id (entries ++ [⟨rotation.vEff, pk⟩])) :=
    appendEntry_eq_ok.mpr ⟨entries, last, he, hl, hlt, rfl⟩
  unfold rotateBls BlsKeyHistory.applyRotation
  rw [hpk]
  simp only [Option.map_some, happend]
  rfl

theorem registered_rotate {h : Histories} {rotation : ValidatorKeyRotation} {id : NodeId}
    {key : ValidatorKeyHistory} (hr : Rotates commitView h.key rotation id key)
    (hh : a.Heeds (.rotate id rotation)) (hreg : Registered h a) :
    Registered { h with key := key, bls := rotateBls h.bls id rotation }
      (a.apply (.rotate id rotation)) := by
  obtain ⟨id', entries, last, hid, hfree, he, hl, hlt, rfl⟩ :=
    ValidatorKeyHistory.applyRotation_eq_ok hr.applied
  obtain rfl : id' = id := Option.some.inj (hid.symm.trans hr.stable)
  have hsigning := hreg.signing.of_get? he
  obtain ⟨pk, hpk⟩ := Option.isSome_iff_exists.mp hr.newBls
  obtain ⟨bls, hb, htable⟩ := hreg.bls
  obtain ⟨lastBls, hlastBls, hltBls⟩ := id hh
  have hneBls : a.bls id' ≠ [] := by
    intro hn
    rw [hn] at hlastBls
    cases hlastBls
  have hbls := rotateBls_of_lt hpk (htable.get?_of_ne_nil hneBls)
    (Option.mem_def.mp hlastBls) hltBls
  constructor
  · show Tabulates _ (Function.update a.signing id' (a.signing id' ++ _))
    rw [hsigning]
    exact hreg.signing.insert id' (by simp)
  · intro id₂ e he₂
    have he₂ : e ∈ Function.update a.signing id' (a.signing id' ++ [_]) id₂ := he₂
    rw [Table.get?_insert]
    by_cases hid₂ : id₂ = id'
    · obtain rfl := hid₂
      rw [Function.update_self] at he₂
      by_cases hkey : e.key = rotation.newPubkey
      · rw [if_pos hkey]
      · rw [if_neg hkey]
        rcases List.mem_append.mp he₂ with he₂ | he₂
        · exact hreg.owner id₂ e he₂
        · exact absurd (congrArg KeyEntry.key (List.mem_singleton.mp he₂)) hkey
    · rw [Function.update_of_ne hid₂] at he₂
      have howner := hreg.owner id₂ e he₂
      have hkey : e.key ≠ rotation.newPubkey := by
        intro hkey
        rw [hkey] at howner
        exact hid₂ (hfree id₂ howner)
      rw [if_neg hkey]
      exact howner
  · refine ⟨_, (congrArg (rotateBls · id' rotation) hb).trans hbls, ?_⟩
    have happly : (a.apply (.rotate id' rotation)).bls = a.bls.give id' rotation.vEff pk := by
      simp only [Assigned.apply, hpk]
    rw [happly]
    exact htable.insert id' (by simp)
  · exact Assigned.InStep.rotate hh hr.newBls (hsigning ▸ hl) hlt hreg.inStep

/-- The index without a key that its validator has at the last view only. -/
theorem owner_withdraw {signing : NodeId → List KeyEntry} {index : Table NodeId NodeId}
    (howner : ∀ id, ∀ e ∈ signing id, index.get? e.key = some id) {id : NodeId} {last : KeyEntry}
    (hlast : (signing id).getLast? = some last)
    (honce : last.key ∉ (signing id).dropLast.map KeyEntry.key) (id' : NodeId) :
    ∀ e ∈ Function.update signing id (signing id).dropLast id',
      Table.get? (index.erase last.key) e.key = some id' := by
  intro e he
  rw [Table.get?_erase]
  by_cases hid : id' = id
  · obtain rfl := hid
    rw [Function.update_self] at he
    have hkept : e.key ≠ last.key := fun hkey => honce (hkey ▸ List.mem_map_of_mem he)
    rw [if_neg hkept]
    exact howner id' e (List.mem_of_mem_dropLast he)
  · rw [Function.update_of_ne hid] at he
    have hown := howner id' e he
    have hlastOwner := howner id last (List.mem_of_getLast? hlast)
    have hkept : e.key ≠ last.key := by
      intro hkey
      rw [hkey, hlastOwner] at hown
      exact hid (Option.some.inj hown).symm
    rw [if_neg hkept]
    exact hown

theorem registered_withdraw {h h' : Histories} {bytes : Bytes}
    (hc : applyRotationCancelCommand R chainId commitView h bytes = .ok (h', true)) :
    ∃ cancel id, decodeTagged rotationCancelTag R.decodeCancel bytes = some cancel ∧
      h.key.validatorFor cancel.payload.validator = some id ∧
      (a.Heeds (.withdraw id cancel.payload.cancellingVEff) → Registered h a →
        Registered h' (a.apply (.withdraw id cancel.payload.cancellingVEff))) := by
  obtain ⟨cancel, stable, hcancel, hstable, hkey, hbls⟩ := histories_of_cancel hc
  refine ⟨cancel, stable, hcancel, hstable, ?_⟩
  intro hh hreg
  obtain ⟨id, entries, last, hid, he, hl, hv, hview, hkey'⟩ :=
    ValidatorKeyHistory.cancelPendingRotation_eq_ok.mp hkey
  obtain rfl : id = stable := Option.some.inj (hid.symm.trans hstable)
  have hsigning := hreg.signing.of_get? he
  have hlast : (a.signing id).getLast? = some last := hsigning ▸ hl
  have hpos : 0 < last.vEff := by omega
  obtain ⟨hne, hneBls, lastBls, hlastBls, hvBls⟩ := (hreg.inStep id).pending hlast hpos
  obtain ⟨bls, hb, htable⟩ := hreg.bls
  have hsomeBls : a.bls id ≠ [] := by
    intro hn
    rw [hn] at hneBls
    exact hneBls rfl
  have hcancelBls : bls.cancelPendingRotation id cancel.payload.cancellingVEff commitView =
      .ok ⟨bls.byStableId.insert id (a.bls id).dropLast⟩ :=
    BlsKeyHistory.cancelPendingRotation_eq_ok.mpr ⟨a.bls id, lastBls,
      htable.get?_of_ne_nil hsomeBls, hlastBls, hvBls.trans hv, hview, rfl⟩
  have happly := Assigned.withdraw_eq (hreg.inStep id) hlast hpos
  rw [hv] at happly
  constructor
  · rw [happly, hkey', ← hsigning]
    exact hreg.signing.insert id hne
  · rw [happly, hkey']
    exact owner_withdraw hreg.owner hlast (hh last hlast)
  · refine ⟨⟨bls.byStableId.insert id (a.bls id).dropLast⟩, ?_, ?_⟩
    · simp only [hbls, hb, Option.map_some, hcancelBls]
      rfl
    · rw [happly]
      exact htable.insert id hneBls
  · rw [← hv]
    exact Assigned.InStep.withdraw hlast hpos hreg.inStep

end

end Boule
