import Boule.HistoryReload
import Boule.Node.Heard

/-! The key histories of a running node: what every commit keeps of them, and when they can be read
back from disk. -/
namespace Boule
open ConsensusNode

/-! ### Commands that change signing keys -/

section
variable {R : HistoryPrimitives} {chainId : ChainId} {commitView : ℕ}

theorem payload_of_acceptedRotation {key key' : ValidatorKeyHistory} {bytes : Bytes}
    {rotation : ValidatorKeyRotation} {stable : Option ValidatorId}
    (h : acceptedRotation R chainId commitView key bytes = some (rotation, stable, key')) :
    ∃ env, decodeTagged rotationTag R.decodeRotation bytes = some env ∧
      env.payload = rotation := by
  unfold acceptedRotation at h
  simp only [Option.bind_eq_bind] at h
  obtain ⟨env, henv, h⟩ := Option.bind_eq_some_iff.mp h
  obtain ⟨current, -, h⟩ := Option.bind_eq_some_iff.mp h
  obtain ⟨_, -, h⟩ := Option.bind_eq_some_iff.mp h
  obtain ⟨_, -, h⟩ := Option.bind_eq_some_iff.mp h
  obtain ⟨key'', -, h⟩ := Option.bind_eq_some_iff.mp h
  exact ⟨env, henv, congrArg Prod.fst (Option.some.inj h)⟩

/-- The rotations that a decoder can return. -/
def HistoryPrimitives.Decodes (R : HistoryPrimitives) (rotation : ValidatorKeyRotation) : Prop :=
  (∃ body env, R.decodeRotation body = some env ∧ env.payload = rotation) ∨
    ∃ body env, R.decodeOperatorRotation body = some env ∧ env.payload = rotation

section
variable {Q : ValidatorKeyHistory → Option BlsKeyHistory → Prop}
  (hrotate : ∀ {key key' bls rotation id view}, R.Decodes rotation →
    Rotates view key rotation id key' → Q key bls → Q key' (rotateBls bls id rotation))
  (hcancel : ∀ {key key' : ValidatorKeyHistory} {bls validator stable cancellingVEff view},
    key.validatorFor validator = some stable →
    key.cancelPendingRotation validator cancellingVEff view = .ok key' → Q key bls →
    Q key' (bls.map fun b : BlsKeyHistory =>
      keepOnError (b.cancelPendingRotation stable cancellingVEff view) b))

include hrotate in
theorem applyRotationCommand_keeps {h : Histories} (bytes : Bytes) (hq : Q h.key h.bls) :
    Q (applyRotationCommand R chainId commitView h bytes).key
      (applyRotationCommand R chainId commitView h bytes).bls := by
  cases hc : acceptedRotation R chainId commitView h.key bytes with
  | none =>
    rw [applyRotationCommand_of_none hc]
    exact hq
  | some accepted =>
    obtain ⟨rotation, stable, key⟩ := accepted
    obtain ⟨id, rfl, hr⟩ := rotates_of_acceptedRotation hc
    obtain ⟨env, henv, hpayload⟩ := payload_of_acceptedRotation hc
    obtain ⟨body, hbody⟩ := decode_of_decodeTagged henv
    rw [applyRotationCommand_of_some hc]
    exact hrotate (.inl ⟨body, env, hbody, hpayload⟩) hr hq

include hcancel in
theorem cancelOrSkip_keeps {h : Histories} (bytes : Bytes) (hq : Q h.key h.bls) :
    Q (cancelOrSkip R chainId commitView h bytes).key
      (cancelOrSkip R chainId commitView h bytes).bls := by
  rcases acceptedWithdraw_cases R chainId commitView h bytes with
    ⟨-, hsame⟩ | ⟨cancel, id, -, -, -, hc⟩
  · rw [hsame]
    exact hq
  · obtain ⟨_, stable, -, hstable, hkey, hbls⟩ := histories_of_cancel hc
    rw [hbls]
    exact hcancel hstable hkey hq

include hrotate in
theorem operatorRotateOrSkip_keeps (op : OperatorKeyHistory) {h : Histories} (bytes : Bytes)
    (hq : Q h.key h.bls) : Q (operatorRotateOrSkip R chainId commitView op h bytes).key
      (operatorRotateOrSkip R chainId commitView op h bytes).bls := by
  rcases acceptedOperatorRotate_cases R chainId commitView op h bytes with
    ⟨-, hsame⟩ | ⟨env, id, key, henv, hr, -, hs⟩
  · rw [hsame]
    exact hq
  · obtain ⟨body, hbody⟩ := decode_of_decodeTagged henv
    rw [hs]
    exact hrotate (.inr ⟨body, env, hbody, rfl⟩) hr hq

theorem foldl_keeps_keys {step : Histories → Bytes → Histories}
    (hstep : ∀ {h : Histories} (bytes : Bytes), Q h.key h.bls →
      Q (step h bytes).key (step h bytes).bls) {h : Histories} (commands : List Bytes)
    (hq : Q h.key h.bls) : Q (commands.foldl step h).key (commands.foldl step h).bls := by
  induction commands generalizing h with
  | nil => exact hq
  | cons bytes commands ih => exact ih (hstep bytes hq)

include hrotate hcancel in
variable (R chainId) in
/-- What rotations and cancels keep of the signing and BLS keys, the commands of a block keep. -/
theorem rotated_keeps {h : Histories} (block : Block) (hq : Q h.key h.bls) :
    Q (applyRotationCommandsToHistories R chainId block h).key
      (applyRotationCommandsToHistories R chainId block h).bls := by
  let rotated := block.commands.foldl (applyRotationCommand R chainId block.header.view) h
  have hrotated : Q rotated.key rotated.bls :=
    foldl_keeps_keys (applyRotationCommand_keeps hrotate) block.commands hq
  have hcancelled : Q (cancelRotations R chainId block rotated).key
      (cancelRotations R chainId block rotated).bls :=
    foldl_keeps_keys (cancelOrSkip_keeps hcancel) block.commands hrotated
  unfold applyRotationCommandsToHistories
  simp only
  split
  · exact hcancelled
  · exact foldl_keeps_keys (operatorRotateOrSkip_keeps hrotate _) block.commands hcancelled

end

variable (R chainId) in
/-- Committed reconfigurations leave the signing keys alone. -/
theorem key_applyReconfigs (n : ConsensusNode) (minVEffDelay : ℕ) (block : Block) :
    (n.applyReconfigs R.toReconfigPrimitives minVEffDelay chainId block).1.histories.key =
      n.histories.key := by
  rw [applyReconfigs_eq]
  cases hc : blockChange R.toReconfigPrimitives minVEffDelay chainId n.validatorHistory block with
  | none => rfl
  | some change =>
    obtain ⟨cmd, newSet⟩ := change
    simp only
    rw [histories_applyReconfig (last_lt_of_blockChange hc) newSet]
    rfl

end

/-! ### Signing keys -/

namespace ValidatorKeyHistory

/-- Every validator has had its id as its key from view zero on, its other keys follow in the
order of their views, and whoever the index names for a key has had it. -/
structure Rooted (h : ValidatorKeyHistory) : Prop where
  first : ∀ id entries, h.byStableId.get? id = some entries → entries.head? = some ⟨0, id⟩
  sorted : ∀ id entries, h.byStableId.get? id = some entries →
    entries.Pairwise fun e e' => e.vEff < e'.vEff
  indexed : ∀ key id, h.pubkeyToStableId.get? key = some id →
    ∃ entries, h.byStableId.get? id = some entries ∧ key ∈ entries.map KeyEntry.key

/-- The index has every key of every validator. -/
def Owned (h : ValidatorKeyHistory) : Prop :=
  ∀ id entries, h.byStableId.get? id = some entries →
    ∀ e ∈ entries, h.pubkeyToStableId.get? e.key = some id

theorem Rooted.applyRotation {key key' : ValidatorKeyHistory} (h : key.Rooted)
    {rotation : ValidatorKeyRotation} {commitView : ℕ}
    (hr : key.applyRotation rotation commitView = .ok key') : key'.Rooted := by
  obtain ⟨id, entries, last, -, -, he, hl, hlt, rfl⟩ := applyRotation_eq_ok hr
  constructor
  · intro id' entries' hget
    rw [Table.get?_insert] at hget
    split_ifs at hget with hid
    · obtain rfl := Option.some.inj hget
      have hfirst := h.first id entries he
      rw [List.head?_append, hfirst, hid]
      rfl
    · exact h.first id' entries' hget
  · intro id' entries' hget
    rw [Table.get?_insert] at hget
    split_ifs at hget
    · obtain rfl := Option.some.inj hget
      exact pairwise_give (h.sorted id entries he) hl hlt
    · exact h.sorted id' entries' hget
  · intro k id' hk
    simp only [Table.get?_insert] at hk ⊢
    by_cases hnew : k = rotation.newPubkey
    · rw [if_pos hnew] at hk
      rw [if_pos (Option.some.inj hk).symm]
      exact ⟨_, rfl, by simp [hnew]⟩
    · rw [if_neg hnew] at hk
      obtain ⟨entries', hget, hmem⟩ := h.indexed k id' hk
      by_cases hid : id' = id
      · rw [if_pos hid]
        rw [hid, he] at hget
        obtain rfl := Option.some.inj hget
        exact ⟨_, rfl, by rw [List.map_append]; exact List.mem_append_left _ hmem⟩
      · rw [if_neg hid]
        exact ⟨entries', hget, hmem⟩

/-- The entry that is dropped is not the first one, which is not pending at any view. -/
theorem Rooted.cancelPendingRotation {key key' : ValidatorKeyHistory} (h : key.Rooted)
    {validator : NodeId} {cancellingVEff commitView : ℕ}
    (hc : key.cancelPendingRotation validator cancellingVEff commitView = .ok key') :
    key'.Rooted := by
  obtain ⟨id, entries, last, -, he, hlast, hv, hlt, rfl⟩ := cancelPendingRotation_eq_ok.mp hc
  constructor
  · intro id' entries' hget
    rw [Table.get?_insert] at hget
    split_ifs at hget with hid
    · obtain rfl := Option.some.inj hget
      have hfirst := h.first id entries he
      cases entries with
      | nil => cases hfirst
      | cons e es =>
        cases es with
        | nil =>
          have hsame : e = last := Option.some.inj hlast
          have hroot : e = ⟨0, id⟩ := Option.some.inj hfirst
          rw [← hsame, hroot] at hv
          simp only at hv
          omega
        | cons e' es => rw [hid]; exact hfirst
    · exact h.first id' entries' hget
  · intro id' entries' hget
    rw [Table.get?_insert] at hget
    split_ifs at hget
    · obtain rfl := Option.some.inj hget
      exact (h.sorted id entries he).sublist (List.dropLast_sublist entries)
    · exact h.sorted id' entries' hget
  · intro k id' hk
    rw [Table.get?_erase] at hk
    split_ifs at hk with hdropped
    obtain ⟨entries', hget, hmem⟩ := h.indexed k id' hk
    rw [Table.get?_insert]
    by_cases hid : id' = id
    · rw [hid, he] at hget
      obtain rfl := Option.some.inj hget
      obtain ⟨init, hinit⟩ := List.getLast?_eq_some_iff.mp hlast
      refine ⟨entries.dropLast, if_pos hid, ?_⟩
      rw [hinit, List.map_append, List.map_singleton] at hmem
      rw [hinit, List.dropLast_concat]
      rcases List.mem_append.mp hmem with hmem | hmem
      · exact hmem
      · exact absurd (List.mem_singleton.mp hmem) hdropped
    · rw [if_neg hid]
      exact ⟨entries', hget, hmem⟩

/-- Such a history can be read back when the index has every key. -/
theorem Rooted.inOrder {h : ValidatorKeyHistory} (hr : h.Rooted) (ho : h.Owned) : h.InOrder where
  ordered := by
    intro id entries he
    refine ⟨?_, hr.sorted id entries he⟩
    rintro rfl
    cases hr.first id _ he
  first := by
    intro id entries he
    rw [hr.first id entries he]
    rfl
  owner := by
    intro key id
    constructor
    · exact hr.indexed key id
    · rintro ⟨entries, he, hmem⟩
      obtain ⟨e, he', rfl⟩ := List.mem_map.mp hmem
      exact ho id entries he e he'

/-- The entries of histories in order decide their index. -/
theorem InOrder.alike {h h' : ValidatorKeyHistory} (ho : h.InOrder) (ho' : h'.InOrder)
    (hs : h.byStableId.Same h'.byStableId) : h.Alike h' := by
  refine ⟨hs, ?_⟩
  intro key
  apply Option.ext
  intro id
  rw [ho.owner, ho'.owner, hs id]

end ValidatorKeyHistory

theorem get?_index_foldl (members : List ValidatorId) (t : Table NodeId NodeId)
    (key : NodeId) : ((members.map fun m => (0, m)).foldl (fun t (s : ℕ × NodeId) =>
      t.insert s.2 s.2) t).get? key = if key ∈ members then some key else t.get? key := by
  induction members generalizing t with
  | nil => simp
  | cons m members ih =>
    rw [List.map_cons, List.foldl_cons, ih, Table.get?_insert]
    by_cases hm : key = m
    · simp [hm]
    · simp [hm]

section
variable (cfg : NodeConfig)

theorem entries_genesis (id : NodeId) : cfg.genesisHistories.key.byStableId.get? id =
    if id ∈ cfg.validatorSet.members then some [⟨0, id⟩] else none := by
  simp only [NodeConfig.genesisHistories, ValidatorKeyHistory.fromSetHistory, seats_fromGenesis]
  rw [get?_register_members, Table.get?_empty, Option.none_or]

theorem index_genesis (key : NodeId) : cfg.genesisHistories.key.pubkeyToStableId.get? key =
    if key ∈ cfg.validatorSet.members then some key else none := by
  simp only [NodeConfig.genesisHistories, ValidatorKeyHistory.fromSetHistory, seats_fromGenesis]
  rw [get?_index_foldl, Table.get?_empty]

theorem rooted_genesis : cfg.genesisHistories.key.Rooted := by
  constructor
  · intro id entries he
    rw [entries_genesis] at he
    split_ifs at he
    obtain rfl := Option.some.inj he
    rfl
  · intro id entries he
    rw [entries_genesis] at he
    split_ifs at he
    obtain rfl := Option.some.inj he
    exact List.pairwise_singleton _ _
  · intro key id hk
    rw [index_genesis] at hk
    split_ifs at hk with hmem
    obtain rfl := Option.some.inj hk
    rw [entries_genesis, if_pos hmem]
    exact ⟨_, rfl, by simp⟩

theorem owned_genesis : cfg.genesisHistories.key.Owned := by
  intro id entries he e hmem
  rw [entries_genesis] at he
  split_ifs at he with hid
  obtain rfl := Option.some.inj he
  obtain rfl := List.mem_singleton.mp hmem
  rw [index_genesis]
  exact if_pos hid

end

/-- Signing keys stay rooted along every chain of commits. -/
theorem Committed.rooted {R : HistoryPrimitives} {chainId : ChainId} {cfg : NodeConfig}
    {blocks : List Block} {n : ConsensusNode} {changes : List KeyChange}
    (h : Committed R chainId cfg blocks n changes) : n.histories.key.Rooted := by
  induction h with
  | genesis histories sync =>
    rw [histories]
    exact rooted_genesis cfg
  | @commit blocks n n' changes storage storage' block before applied ih =>
    rw [(committedRotations_of_some applied).histories]
    rw [← key_applyReconfigs R chainId n cfg.minVEffDelay block] at ih
    exact rotated_keeps R chainId (Q := fun key _ => key.Rooted)
      (fun _ hr h => h.applyRotation hr.applied) (fun _ hc h => h.cancelPendingRotation hc)
      block ih
  | other before histories core ih =>
    rw [histories]
    exact ih

/-! ### BLS and operator keys -/

/-- The entries of every id are in the order of their views. -/
def Ascending (t : Table NodeId (List KeyEntry)) : Prop :=
  ∀ id entries, t.get? id = some entries → entries.Pairwise fun e e' => e.vEff < e'.vEff

section
variable {t t' : Table NodeId (List KeyEntry)}

theorem Ordered.ascending (h : Ordered t) : Ascending t := fun id entries he => (h id entries he).2

theorem Ascending.ordered (h : Ascending t) (hne : ∀ id, t.get? id ≠ some []) : Ordered t := by
  intro id entries he
  refine ⟨?_, h id entries he⟩
  rintro rfl
  exact hne id he

theorem Ordered.get?_ne_nil (h : Ordered t) (id : NodeId) : t.get? id ≠ some [] := fun he =>
  (h id [] he).1 rfl

theorem ordered_blsGenesis (keys : List (NodeId × BlsPublicKey)) :
    Ordered (BlsKeyHistory.withGenesis keys).byStableId := by
  intro id entries he
  rw [get?_withGenesis] at he
  obtain ⟨key, -, rfl⟩ := Option.map_eq_some_iff.mp he
  exact ⟨by simp, List.pairwise_singleton _ _⟩

theorem Ascending.registerAll (h : Ascending t) (vEff : ℕ) (seats : List (NodeId × ℕ)) :
    Ascending (Boule.registerAll t vEff seats) := by
  intro id entries he
  rw [get?_registerAll] at he
  cases hget : t.get? id with
  | some entries' =>
    rw [hget] at he
    obtain rfl := Option.some.inj he
    exact h id _ hget
  | none =>
    rw [hget] at he
    obtain ⟨key, -, rfl⟩ := Option.map_eq_some_iff.mp he
    exact List.pairwise_singleton _ _

theorem registerAll_ne_nil (h : ∀ id, t.get? id ≠ some []) (vEff : ℕ) (seats : List (NodeId × ℕ))
    (id : NodeId) : (registerAll t vEff seats).get? id ≠ some [] := by
  rw [get?_registerAll]
  cases hget : t.get? id with
  | some entries =>
    intro he
    rw [Option.some_or, ← hget] at he
    exact h id he
  | none =>
    intro he
    obtain ⟨key, -, hne⟩ := Option.map_eq_some_iff.mp he
    cases hne

theorem appendEntry_ne_nil {stableId vEff key : ℕ} (h : ∀ id, t.get? id ≠ some [])
    (ha : appendEntry t stableId vEff key = .ok t') (id : NodeId) : t'.get? id ≠ some [] := by
  obtain ⟨entries, last, -, -, -, rfl⟩ := appendEntry_eq_ok.mp ha
  rw [Table.get?_insert]
  split_ifs
  · simp
  · exact h id

end

/-- What every edit of BLS keys keeps: a first entry for a newcomer, an entry after the last one,
and a last entry that is taken back. None of them is at view zero. -/
structure KeptByEdits (Q : Table NodeId (List KeyEntry) → Prop) : Prop where
  register : ∀ {t : Table NodeId (List KeyEntry)} {id : NodeId} {vEff key : ℕ}, 0 < vEff →
    t.get? id = none → Q t → Q (t.insert id [⟨vEff, key⟩])
  append : ∀ {t : Table NodeId (List KeyEntry)} {id : NodeId} {entries : List KeyEntry}
    {last : KeyEntry} {vEff key : ℕ}, t.get? id = some entries → entries.getLast? = some last →
    last.vEff < vEff → Q t → Q (t.insert id (entries ++ [⟨vEff, key⟩]))
  cancel : ∀ {t : Table NodeId (List KeyEntry)} {id : NodeId} {entries : List KeyEntry}
    {last : KeyEntry}, t.get? id = some entries → entries.getLast? = some last → 0 < last.vEff →
    Q t → Q (t.insert id entries.dropLast)

/-- A BLS history with a property of its table. -/
def HasBls (Q : Table NodeId (List KeyEntry) → Prop) (bls : Option BlsKeyHistory) : Prop :=
  ∃ b ∈ bls, Q b.byStableId

theorem HasBls.congr {Q : Table NodeId (List KeyEntry) → Prop} {bls bls' : Option BlsKeyHistory}
    (h : HasBls Q bls) (ha : Option.Rel BlsKeyHistory.Alike bls bls')
    (hq : ∀ {t t' : Table NodeId (List KeyEntry)}, t.Same t' → Q t → Q t') : HasBls Q bls' := by
  obtain ⟨b, rfl, hb⟩ := h
  cases ha with
  | some hs => exact ⟨_, rfl, hq hs hb⟩

section
variable {Q : Table NodeId (List KeyEntry) → Prop} (hk : KeptByEdits Q)
include hk

theorem KeptByEdits.appendEntry {t t' : Table NodeId (List KeyEntry)} {id vEff key : ℕ}
    (ha : Boule.appendEntry t id vEff key = .ok t') (h : Q t) : Q t' := by
  obtain ⟨entries, last, he, hl, hlt, rfl⟩ := appendEntry_eq_ok.mp ha
  exact hk.append he hl hlt h

theorem KeptByEdits.registerAll {t : Table NodeId (List KeyEntry)} {vEff : ℕ} (hv : 0 < vEff)
    (seats : List (NodeId × ℕ)) (h : Q t) : Q (Boule.registerAll t vEff seats) := by
  unfold Boule.registerAll
  induction seats generalizing t with
  | nil => exact h
  | cons s seats ih =>
    apply ih
    show Q (Boule.register t s.1 vEff s.2)
    unfold Boule.register
    split_ifs with hc
    · exact h
    · exact hk.register hv ((Table.containsKey_eq_false_iff t s.1).mp (by simpa using hc)) h

variable {bls : Option BlsKeyHistory} (h : HasBls Q bls)
include h

theorem KeptByEdits.rotateBls (stable : NodeId) (rotation : ValidatorKeyRotation) :
    HasBls Q (Boule.rotateBls bls stable rotation) := by
  obtain ⟨b, rfl, hb⟩ := h
  unfold Boule.rotateBls
  cases rotation.newBlsPubkey with
  | none => exact ⟨b, rfl, hb⟩
  | some pk =>
    refine ⟨_, rfl, ?_⟩
    simp only [BlsKeyHistory.applyRotation]
    cases hc : Boule.appendEntry b.byStableId stable rotation.vEff pk with
    | error e => exact hb
    | ok t => exact hk.appendEntry hc hb

theorem KeptByEdits.cancelBls (stable cancellingVEff commitView : ℕ) :
    HasBls Q (bls.map fun b => keepOnError
      (b.cancelPendingRotation stable cancellingVEff commitView) b) := by
  obtain ⟨b, rfl, hb⟩ := h
  refine ⟨_, rfl, ?_⟩
  simp only
  cases hc : b.cancelPendingRotation stable cancellingVEff commitView with
  | error e => exact hb
  | ok b' =>
    obtain ⟨entries, last, he, hl, hv, hlt, rfl⟩ :=
      BlsKeyHistory.cancelPendingRotation_eq_ok.mp hc
    rw [keepOnError]
    exact hk.cancel he hl (by omega) hb

theorem KeptByEdits.registerBls {cmd : ReconfigCommand} (hv : 0 < cmd.vEff)
    (newSet : ValidatorSet) : HasBls Q (bls.map fun b => registerBlsKeys b cmd newSet) := by
  obtain ⟨b, rfl, hb⟩ := h
  refine ⟨_, rfl, ?_⟩
  simp only [registerBlsKeys_eq]
  exact hk.registerAll hv _ hb

end

theorem keptByEdits_ascending : KeptByEdits Ascending where
  register := by
    intro t id vEff key _ _ h id' entries he
    rw [Table.get?_insert] at he
    split_ifs at he
    · obtain rfl := Option.some.inj he
      exact List.pairwise_singleton _ _
    · exact h id' entries he
  append := by
    intro t id entries last vEff key hget hl hlt h id' entries' he
    rw [Table.get?_insert] at he
    split_ifs at he
    · obtain rfl := Option.some.inj he
      exact pairwise_give (h id entries hget) hl hlt
    · exact h id' entries' he
  cancel := by
    intro t id entries last hget _ _ h id' entries' he
    rw [Table.get?_insert] at he
    split_ifs at he
    · obtain rfl := Option.some.inj he
      exact (h id entries hget).sublist (List.dropLast_sublist entries)
    · exact h id' entries' he

theorem ordered_empty : Ordered (∅ : Table NodeId (List KeyEntry)) := by
  intro id entries he
  rw [Table.get?_empty] at he
  cases he

theorem ordered_operatorGenesis (keys : List (ValidatorId × NodeId)) :
    Ordered (OperatorKeyHistory.withGenesis keys).byStableId :=
  (ordered_empty.ascending.registerAll 0 keys).ordered
    (registerAll_ne_nil ordered_empty.get?_ne_nil 0 keys)

theorem vEff_pos_of_blockChange {R : ReconfigPrimitives} {minVEffDelay : ℕ} {chainId : ChainId}
    {history : ValidatorSetHistory} {block : Block} {cmd : ReconfigCommand}
    {newSet : ValidatorSet}
    (h : blockChange R minVEffDelay chainId history block = some (cmd, newSet)) :
    0 < cmd.vEff := by
  have hlt := last_lt_of_blockChange h
  omega

theorem ordered_registerOperators {op : OperatorKeyHistory} (h : Ordered op.byStableId)
    (cmd : ReconfigCommand) (newSet : ValidatorSet) :
    Ordered (registerOperators op cmd newSet).byStableId := by
  rw [registerOperators_eq]
  exact (h.ascending.registerAll cmd.vEff _).ordered
    (registerAll_ne_nil h.get?_ne_nil cmd.vEff _)

section
variable {R : HistoryPrimitives} {chainId : ChainId} {view : ℕ}
  {operator operator' : OperatorKeyHistory} {bytes : Bytes}

theorem applyOperatorKeyRotationCommand_eq_ok :
    applyOperatorKeyRotationCommand R chainId view operator bytes = .ok (operator', true) ↔
      ∃ env current entries last,
        decodeTagged operatorKeyRotationTag R.decodeOperatorKeyRotation bytes = some env ∧
        operator.keyAt env.payload.validator view = some current ∧
        env.verify R chainId current = .ok () ∧
        operator.byStableId.get? env.payload.validator = some entries ∧
        entries.getLast? = some last ∧ last.vEff < env.payload.vEff ∧
        operator' = ⟨operator.byStableId.insert env.payload.validator
          (entries ++ [⟨env.payload.vEff, env.payload.newOperatorPubkey⟩])⟩ := by
  unfold applyOperatorKeyRotationCommand
  constructor
  · intro hc
    split_ifs at hc
    · cases (Prod.mk.inj (Except.ok.inj hc)).2
    · obtain ⟨env, henv, hc⟩ := bind_eq_ok.mp hc
      obtain ⟨current, hcurrent, hc⟩ := bind_eq_ok.mp hc
      obtain ⟨_, hverify, hc⟩ := bind_eq_ok.mp hc
      obtain ⟨rotated, hrotated, hc⟩ := bind_eq_ok.mp hc
      obtain ⟨rfl, -⟩ := Prod.mk.inj (Except.ok.inj hc)
      obtain ⟨t, ht, rfl⟩ := map_eq_ok.mp (mapError_eq_ok.mp hrotated)
      obtain ⟨entries, last, he, hl, hlt, rfl⟩ := appendEntry_eq_ok.mp ht
      exact ⟨env, current, entries, last, okOr_eq_ok.mp henv, okOr_eq_ok.mp hcurrent,
        mapError_eq_ok.mp hverify, he, hl, hlt, rfl⟩
  · rintro ⟨env, current, entries, last, henv, hcurrent, hverify, he, hl, hlt, rfl⟩
    have hrotated : operator.applyRotation env.payload.validator env.payload.vEff
        env.payload.newOperatorPubkey = .ok ⟨operator.byStableId.insert env.payload.validator
          (entries ++ [⟨env.payload.vEff, env.payload.newOperatorPubkey⟩])⟩ :=
      map_eq_ok.mpr ⟨_, appendEntry_eq_ok.mpr ⟨entries, last, he, hl, hlt, rfl⟩, rfl⟩
    rw [tag_of_decodeTagged henv]
    exact bind_eq_ok.mpr ⟨env, okOr_eq_ok.mpr henv, bind_eq_ok.mpr ⟨current,
      okOr_eq_ok.mpr hcurrent, bind_eq_ok.mpr ⟨(), mapError_eq_ok.mpr hverify,
        bind_eq_ok.mpr ⟨_, mapError_eq_ok.mpr hrotated, rfl⟩⟩⟩⟩

variable (R chainId view operator bytes) in
theorem operatorKeyRotateOrSkip_cases :
    operatorKeyRotateOrSkip R chainId view operator bytes = operator ∨
      applyOperatorKeyRotationCommand R chainId view operator bytes =
        .ok (operatorKeyRotateOrSkip R chainId view operator bytes, true) := by
  unfold operatorKeyRotateOrSkip
  cases hc : applyOperatorKeyRotationCommand R chainId view operator bytes with
  | error e => exact .inl rfl
  | ok r =>
    obtain ⟨operator', applied⟩ := r
    cases applied with
    | true => exact .inr rfl
    | false => exact .inl (applyOperatorKeyRotationCommand_keeps hc)

end

/-- What an appended entry keeps, the rotations of operator keys keep. -/
theorem applyOperatorKeyRotations_keeps {Q : Table NodeId (List KeyEntry) → Prop}
    (happend : ∀ {t t' : Table NodeId (List KeyEntry)} {id vEff key : ℕ},
      appendEntry t id vEff key = .ok t' → Q t → Q t')
    (R : HistoryPrimitives) (chainId : ChainId) (block : Block) {op : OperatorKeyHistory}
    (h : Q op.byStableId) : Q (applyOperatorKeyRotations R chainId block op).byStableId := by
  show Q (block.commands.foldl (operatorKeyRotateOrSkip R chainId block.header.view)
    op).byStableId
  induction block.commands generalizing op with
  | nil => exact h
  | cons bytes commands ih =>
    apply ih
    rcases operatorKeyRotateOrSkip_cases R chainId block.header.view op bytes with hsame | hc
    · rw [hsame]
      exact h
    · obtain ⟨env, current, entries, last, -, -, -, he, hl, hlt, hrotated⟩ :=
        applyOperatorKeyRotationCommand_eq_ok.mp hc
      rw [hrotated]
      exact happend (appendEntry_eq_ok.mpr ⟨entries, last, he, hl, hlt, rfl⟩) h

end Boule
