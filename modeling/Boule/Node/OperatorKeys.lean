import Boule.Node.KeyRuns
import Boule.Node.StagedUpdates

/-! Commands that operators sign: whose key they need, and which rotations of operator keys leave
the keys of past views alone. -/
namespace Boule
open ConsensusNode

/-! ### The key of a view -/

section
variable {entries : List KeyEntry} {last : KeyEntry}

theorem keyAt_append (hs : entries.Pairwise fun e e' => e.vEff < e'.vEff)
    (hl : entries.getLast? = some last) {vEff : ℕ} (hlt : last.vEff < vEff) (key view : ℕ) :
    keyAt (entries ++ [⟨vEff, key⟩]) view =
      if vEff ≤ view then some key else keyAt entries view := by
  unfold keyAt
  rw [takeWhile_eq_filter_of_sorted (pairwise_give hs hl hlt), takeWhile_eq_filter_of_sorted hs,
    List.filter_append]
  by_cases hv : vEff ≤ view
  · simp [hv]
  · simp [hv]

/-- From the view of the last entry on its key is active. -/
theorem keyAt_of_last (hs : entries.Pairwise fun e e' => e.vEff < e'.vEff)
    (hl : entries.getLast? = some last) {view : ℕ} (hle : last.vEff ≤ view) :
    keyAt entries view = some last.key := by
  obtain ⟨init, rfl⟩ := List.getLast?_eq_some_iff.mp hl
  unfold keyAt
  rw [takeWhile_eq_filter_of_sorted hs, List.filter_append]
  simp [hle]

/-- An entry is active until the next one is. -/
theorem active_of_keyAt (hs : entries.Pairwise fun e e' => e.vEff < e'.vEff) {view key : ℕ}
    (hk : keyAt entries view = some key) : ∃ e ∈ entries, e.key = key ∧ e.vEff ≤ view ∧
      ∀ e' ∈ entries, e.vEff < e'.vEff → view < e'.vEff := by
  unfold keyAt at hk
  rw [takeWhile_eq_filter_of_sorted hs] at hk
  obtain ⟨e, he, rfl⟩ := Option.map_eq_some_iff.mp hk
  obtain ⟨hmem, hle⟩ := List.mem_filter.mp (List.mem_of_getLast? he)
  refine ⟨e, hmem, rfl, of_decide_eq_true hle, fun e' hmem' hlt => ?_⟩
  by_contra hview
  have hactive : e' ∈ entries.filter fun e => e.vEff ≤ view := by
    rw [List.mem_filter, decide_eq_true_iff]
    exact ⟨hmem', by omega⟩
  obtain ⟨init, hinit⟩ := List.getLast?_eq_some_iff.mp he
  have hsorted := hs.filter fun e => e.vEff ≤ view
  rw [hinit] at hactive hsorted
  rcases List.mem_append.mp hactive with hinit' | hlast
  · have hbefore := (List.pairwise_append.mp hsorted).2.2 e' hinit' e (List.mem_singleton_self e)
    omega
  · obtain rfl := List.mem_singleton.mp hlast
    omega

end

namespace OperatorKeyHistory

/-- The key is the validator's at the view, and no key that follows it is active yet. -/
def Active (op : OperatorKeyHistory) (v : ValidatorId) (view : ℕ) (key : NodeId) : Prop :=
  op.keyAt v view = some key ∧ ∃ entries, op.byStableId.get? v = some entries ∧
    ∃ e ∈ entries, e.key = key ∧ e.vEff ≤ view ∧
      ∀ e' ∈ entries, e.vEff < e'.vEff → view < e'.vEff

variable {op : OperatorKeyHistory} {v : ValidatorId}

theorem active_iff (ho : Ordered op.byStableId) {view : ℕ} {key : NodeId} :
    op.Active v view key ↔ op.keyAt v view = some key := by
  constructor
  · exact fun h => h.1
  · intro hk
    obtain ⟨entries, he, hkey⟩ := Option.bind_eq_some_iff.mp hk
    exact ⟨hk, entries, he, active_of_keyAt (ho v entries he).2 hkey⟩

theorem keyAt_insert {entries : List KeyEntry} {last : KeyEntry} (ho : Ordered op.byStableId)
    (he : op.byStableId.get? v = some entries) (hl : entries.getLast? = some last) {vEff : ℕ}
    (hlt : last.vEff < vEff) (key : NodeId) (v' : ValidatorId) (view : ℕ) :
    (OperatorKeyHistory.mk (op.byStableId.insert v (entries ++ [⟨vEff, key⟩]))).keyAt v' view =
      if v' = v ∧ vEff ≤ view then some key else op.keyAt v' view := by
  unfold keyAt
  rw [Table.get?_insert]
  by_cases hv : v' = v
  · subst hv
    rw [if_pos rfl, he, Option.bind_some, Option.bind_some,
      keyAt_append (ho v' entries he).2 hl hlt]
    simp
  · rw [if_neg hv, if_neg fun h => hv h.1]

end OperatorKeyHistory

/-! ### One command -/

section
variable (R : HistoryPrimitives) (chainId : ChainId) (view : ℕ)

/-- An applied rotation by an operator is signed by the operator key of the view. -/
def OperatorRotationSigned (operator : OperatorKeyHistory) (h : Histories) (bytes : Bytes) : Prop :=
  ∀ h', applyOperatorRotationCommand R chainId view operator h bytes = .ok (h', true) →
    ∃ env v key, decodeTagged operatorRotationTag R.decodeOperatorRotation bytes = some env ∧
      h.key.validatorFor env.payload.validator = some v ∧ operator.Active v view key ∧
      R.rotationVerifies key env.payload chainId env.sigOperator = true

/-- An applied rotation of an operator key is signed by the operator key of the view. -/
def KeyRotationSigned (operator : OperatorKeyHistory) (bytes : Bytes) : Prop :=
  ∀ operator', applyOperatorKeyRotationCommand R chainId view operator bytes =
      .ok (operator', true) →
    ∃ env key, decodeTagged operatorKeyRotationTag R.decodeOperatorKeyRotation bytes = some env ∧
      operator.Active env.payload.validator view key ∧
      R.operatorKeyRotationVerifies key env.payload chainId env.sigOld = true

/-- An applied rotation of an operator key leaves the keys up to the view alone. -/
def KeepsPast (operator : OperatorKeyHistory) (bytes : Bytes) : Prop :=
  ∀ operator', applyOperatorKeyRotationCommand R chainId view operator bytes =
      .ok (operator', true) →
    ∀ v past, past ≤ view → operator'.keyAt v past = operator.keyAt v past

/-- A rotation of an operator key that passes all checks takes effect after the view, or it gives
the key that is active already. -/
def Ahead (operator : OperatorKeyHistory) (bytes : Bytes) : Prop :=
  ∀ env ∈ decodeTagged operatorKeyRotationTag R.decodeOperatorKeyRotation bytes,
    ∀ current ∈ operator.keyAt env.payload.validator view,
      (env.verify R chainId current).toOption = some () →
        ∀ entries ∈ operator.byStableId.get? env.payload.validator,
          ∀ last ∈ entries.getLast?, last.vEff < env.payload.vEff →
            view < env.payload.vEff ∨ env.payload.newOperatorPubkey = current

instance (operator : OperatorKeyHistory) (bytes : Bytes) :
    Decidable (Ahead R chainId view operator bytes) :=
  inferInstanceAs (Decidable (∀ env ∈ _, ∀ current ∈ _, _ → ∀ entries ∈ _, ∀ last ∈ _, _ → _ ∨ _))

end

section
variable {R : HistoryPrimitives} {chainId : ChainId} {view : ℕ}
  {operator operator' : OperatorKeyHistory} {bytes : Bytes}

/-- What is applied is signed by the active key, since the code looks that key up. -/
theorem operatorRotationSigned (ho : Ordered operator.byStableId) (h : Histories) (bytes : Bytes) :
    OperatorRotationSigned R chainId view operator h bytes := by
  intro h' hc
  rcases applyOperatorRotationCommand_eq_ok.mp hc with
    ⟨-, -, happlied⟩ | ⟨env, v, key, _, henv, hv, hkey, hverify, -⟩
  · cases happlied
  · obtain ⟨_, hsigned, -⟩ := bind_eq_ok.mp hverify
    exact ⟨env, v, key, henv, hv, (OperatorKeyHistory.active_iff ho).mpr hkey,
      require_eq_ok.mp hsigned⟩

theorem keyRotationSigned (ho : Ordered operator.byStableId) (bytes : Bytes) :
    KeyRotationSigned R chainId view operator bytes := by
  intro operator' hc
  obtain ⟨env, key, _, _, henv, hkey, hverify, -⟩ := applyOperatorKeyRotationCommand_eq_ok.mp hc
  obtain ⟨_, hsigned, -⟩ := bind_eq_ok.mp hverify
  exact ⟨env, key, henv, (OperatorKeyHistory.active_iff ho).mpr hkey, require_eq_ok.mp hsigned⟩

/-- The new key counts from the view of its entry on, so past views change when that view is not
ahead and the key is another one. -/
theorem keepsPast_iff (ho : Ordered operator.byStableId) (bytes : Bytes) :
    KeepsPast R chainId view operator bytes ↔ Ahead R chainId view operator bytes := by
  constructor
  · intro hkeeps env henv current hcurrent hverify entries he last hl hlt
    have hok := applyOperatorKeyRotationCommand_eq_ok.mpr ⟨env, current, entries, last, henv,
      hcurrent, toOption_eq_some.mp hverify, he, hl, hlt, rfl⟩
    have hsame := hkeeps _ hok env.payload.validator view le_rfl
    rw [OperatorKeyHistory.keyAt_insert ho he hl hlt, hcurrent] at hsame
    by_cases hview : env.payload.vEff ≤ view
    · rw [if_pos ⟨rfl, hview⟩] at hsame
      exact .inr (Option.some.inj hsame)
    · exact .inl (by omega)
  · intro hahead operator' hok v past hpast
    obtain ⟨env, current, entries, last, henv, hcurrent, hverify, he, hl, hlt, rfl⟩ :=
      applyOperatorKeyRotationCommand_eq_ok.mp hok
    rw [OperatorKeyHistory.keyAt_insert ho he hl hlt]
    split_ifs with hnew
    · obtain ⟨rfl, hle⟩ := hnew
      have hcase := hahead env henv current hcurrent (toOption_eq_some.mpr hverify) entries he last
        hl hlt
      have hsame : env.payload.newOperatorPubkey = current := hcase.resolve_left (by omega)
      have hlast : ∀ w, last.vEff ≤ w → operator.keyAt env.payload.validator w = some last.key := by
        intro w hw
        unfold OperatorKeyHistory.keyAt
        rw [he, Option.bind_some, keyAt_of_last (ho _ _ he).2 hl hw]
      have hpresent := hlast view (by omega)
      rw [hlast past (by omega), ← hpresent, hcurrent, hsame]
    · rfl

variable (R chainId view) in
theorem ordered_operatorKeyRotate (ho : Ordered operator.byStableId) (bytes : Bytes) :
    Ordered (operatorKeyRotateOrSkip R chainId view operator bytes).byStableId := by
  rcases operatorKeyRotateOrSkip_cases R chainId view operator bytes with hsame | hok
  · rw [hsame]
    exact ho
  · obtain ⟨env, current, entries, last, -, -, -, he, hl, hlt, hrotated⟩ :=
      applyOperatorKeyRotationCommand_eq_ok.mp hok
    rw [hrotated]
    exact ho.insert (by simp) (pairwise_give (ho _ entries he).2 hl hlt)

theorem keyAt_run_of_keepsPast {commands : List Bytes}
    (h : Along (operatorKeyRotateOrSkip R chainId view) (KeepsPast R chainId view) operator
      commands) (v : ValidatorId) {past : ℕ} (hpast : past ≤ view) :
    (run (operatorKeyRotateOrSkip R chainId view) operator commands).keyAt v past =
      operator.keyAt v past := by
  induction commands generalizing operator with
  | nil => rfl
  | cons bytes commands ih =>
    rw [run_cons, ih h.2]
    rcases operatorKeyRotateOrSkip_cases R chainId view operator bytes with hsame | hok
    · rw [hsame]
    · exact h.1 _ hok v past hpast

end

/-! ### Blocks -/

namespace Histories

section
variable (R : HistoryPrimitives) (minVEffDelay : ℕ) (chainId : ChainId)

/-- The histories that a block's commands of operators meet. -/
def operating (h : Histories) (block : Block) : Histories :=
  cancelRotations R chainId block
    (block.commands.foldl (applyRotationCommand R chainId block.header.view)
      (applyReconfigCommandsToSetHistory R minVEffDelay chainId block h))

/-- What operators have signed is signed with active keys, and past keys stay as they are. -/
def BlockSettles (h : Histories) (block : Block) : Prop :=
  ∀ op ∈ (h.operating R minVEffDelay chainId block).operator,
    Along (operatorRotateOrSkip R chainId block.header.view op)
      (OperatorRotationSigned R chainId block.header.view op)
      (h.operating R minVEffDelay chainId block) block.commands ∧
    Along (operatorKeyRotateOrSkip R chainId block.header.view)
      (fun op bytes => KeyRotationSigned R chainId block.header.view op bytes ∧
        KeepsPast R chainId block.header.view op bytes) op block.commands

/-- The operator keys that a block gives are for views after its own. -/
def BlockAhead (h : Histories) (block : Block) : Prop :=
  ∀ op ∈ (h.operating R minVEffDelay chainId block).operator,
    Along (operatorKeyRotateOrSkip R chainId block.header.view)
      (Ahead R chainId block.header.view) op block.commands

instance (h : Histories) (block : Block) :
    Decidable (BlockAhead R minVEffDelay chainId h block) :=
  inferInstanceAs (Decidable (∀ op ∈ _, Along _ _ op _))

end

/-- The operator keys of the histories are in the order of their views. -/
def OperatorsOrdered (h : Histories) : Prop := ∀ op ∈ h.operator, Ordered op.byStableId

variable {R : HistoryPrimitives} {minVEffDelay : ℕ} {chainId : ChainId} {h : Histories}
  {block : Block}

theorem operator_operating : (h.operating R minVEffDelay chainId block).operator =
    (applyReconfigCommandsToSetHistory R minVEffDelay chainId block h).operator := by
  have hrotated : (block.commands.foldl (applyRotationCommand R chainId block.header.view)
      (applyReconfigCommandsToSetHistory R minVEffDelay chainId block h)).operator =
      (applyReconfigCommandsToSetHistory R minVEffDelay chainId block h).operator :=
    operator_rotated _ _
  rw [← hrotated]
  exact foldl_accepted_keeps (f := Histories.operator)
    (fun hc => (applyRotationCancelCommand_keeps hc).2.1) _ _

theorem operator_replayBlock : (replayBlock R minVEffDelay chainId h block).operator =
    (h.operating R minVEffDelay chainId block).operator.map
      (applyOperatorKeyRotations R chainId block) := by
  unfold replayBlock applyRotationCommandsToHistories
  simp only
  cases hop : (h.operating R minVEffDelay chainId block).operator with
  | none =>
    unfold operating at hop
    rw [hop]
    exact hop
  | some op =>
    unfold operating at hop
    rw [hop]
    rfl

/-- A newcomer's operator key is for views after the block's. -/
theorem keyAt_operating {op : OperatorKeyHistory}
    (hop : op ∈ (h.operating R minVEffDelay chainId block).operator) :
    ∃ old ∈ h.operator, (Ordered old.byStableId → Ordered op.byStableId) ∧
      ∀ v past, past ≤ block.header.view → op.keyAt v past = old.keyAt v past := by
  rw [operator_operating, applyReconfigCommandsToSetHistory_eq] at hop
  cases hc : blockChange R.toReconfigPrimitives minVEffDelay chainId h.set block with
  | none =>
    rw [hc] at hop
    exact ⟨op, hop, id, fun _ _ _ => rfl⟩
  | some change =>
    obtain ⟨cmd, newSet⟩ := change
    rw [hc] at hop
    obtain ⟨old, hold, rfl⟩ := Option.map_eq_some_iff.mp hop
    refine ⟨old, hold, fun ho => ordered_registerOperators ho cmd newSet, fun v past hpast => ?_⟩
    have hdelay := (StagingNode.admissible_of_blockChange hc).1.delay
    have hfloor : delayFloor = 4 := rfl
    have hlater : ¬ cmd.vEff ≤ past := by
      have hmax := Nat.le_max_right minVEffDelay delayFloor
      omega
    unfold OperatorKeyHistory.keyAt
    rw [registerOperators_eq, get?_registerAll]
    cases old.byStableId.get? v with
    | some entries => rfl
    | none =>
      cases (operatorSeats cmd newSet).lookup v with
      | none => rfl
      | some key => simp [keyAt, hlater]

theorem OperatorsOrdered.operating (ho : h.OperatorsOrdered) (block : Block) :
    (h.operating R minVEffDelay chainId block).OperatorsOrdered := by
  intro op hop
  obtain ⟨old, hold, hordered, -⟩ := keyAt_operating hop
  exact hordered (ho old hold)

theorem OperatorsOrdered.replayBlock (ho : h.OperatorsOrdered) (block : Block) :
    (replayBlock R minVEffDelay chainId h block).OperatorsOrdered := by
  intro op hop
  rw [operator_replayBlock] at hop
  obtain ⟨op', hop', rfl⟩ := Option.map_eq_some_iff.mp hop
  have hrun : Along (operatorKeyRotateOrSkip R chainId block.header.view) (fun _ _ => True) op'
      block.commands := Along.of_forall fun _ _ => trivial
  exact hrun.invariant (I := fun op => Ordered op.byStableId)
    (fun op bytes _ ho => ordered_operatorKeyRotate R chainId block.header.view ho bytes)
    (ho.operating block op' hop')

theorem blockSettles_iff (ho : h.OperatorsOrdered) (block : Block) :
    BlockSettles R minVEffDelay chainId h block ↔ BlockAhead R minVEffDelay chainId h block := by
  refine forall_congr' fun op => forall_congr' fun hop => ?_
  have hordered := ho.operating block op hop
  have hsigned : ∀ (h : Histories) (commands : List Bytes),
      Along (operatorRotateOrSkip R chainId block.header.view op)
        (OperatorRotationSigned R chainId block.header.view op) h commands := by
    intro h commands
    induction commands generalizing h with
    | nil => trivial
    | cons bytes commands ih => exact ⟨operatorRotationSigned hordered h bytes, ih _⟩
  rw [and_iff_right (hsigned _ _)]
  apply along_congr_of_invariant (I := fun op => Ordered op.byStableId) _ _ hordered
  · intro op bytes ho
    exact ordered_operatorKeyRotate R chainId block.header.view ho bytes
  · intro op bytes ho
    rw [and_iff_right (keyRotationSigned ho bytes), keepsPast_iff ho]

/-- The block leaves the operator keys of the views up to its own alone. -/
theorem keyAt_replayBlock (ho : h.OperatorsOrdered)
    (hahead : BlockAhead R minVEffDelay chainId h block) {later op : OperatorKeyHistory}
    (hlater : later ∈ (replayBlock R minVEffDelay chainId h block).operator)
    (hop : op ∈ (h.operating R minVEffDelay chainId block).operator) (v : ValidatorId) {past : ℕ}
    (hpast : past ≤ block.header.view) : later.keyAt v past = op.keyAt v past := by
  rw [operator_replayBlock, Option.mem_def.mp hop] at hlater
  obtain rfl := Option.some.inj hlater
  have hsettles := (blockSettles_iff ho block).mpr hahead op hop
  exact keyAt_run_of_keepsPast (hsettles.2.mono fun _ _ hs => hs.2) v hpast

/-- Blocks at the view or later leave its operator keys alone. -/
theorem keyAt_run {blocks : List Block} (ho : h.OperatorsOrdered)
    (hahead : Along (replayBlock R minVEffDelay chainId) (BlockAhead R minVEffDelay chainId) h
      blocks) {past : ℕ} (hpast : ∀ block ∈ blocks, past ≤ block.header.view)
    {later : OperatorKeyHistory}
    (hlater : later ∈ (run (replayBlock R minVEffDelay chainId) h blocks).operator) :
    ∃ op ∈ h.operator, ∀ v, later.keyAt v past = op.keyAt v past := by
  induction blocks generalizing h with
  | nil => exact ⟨later, hlater, fun _ => rfl⟩
  | cons block blocks ih =>
    have hview := hpast block (List.mem_cons_self ..)
    obtain ⟨op, hop, hsame⟩ := ih (ho.replayBlock block) hahead.2
      (fun b hb => hpast b (List.mem_cons_of_mem _ hb)) hlater
    have hmap := hop
    rw [operator_replayBlock] at hmap
    obtain ⟨op', hop', -⟩ := Option.map_eq_some_iff.mp hmap
    obtain ⟨old, hold, -, hkept⟩ := keyAt_operating hop'
    refine ⟨old, hold, fun v => ?_⟩
    rw [hsame v, keyAt_replayBlock ho hahead.1 hop hop' v hview, hkept v past hview]

variable (R minVEffDelay chainId) in
/-- What operators sign is settled by active keys along a run, and past keys never change,
exactly as long as no block gives an operator another key for a view that is past; on a chain the
operator keys of a block's view are then those of every later history. -/
theorem settles_iff_ahead (ho : h.OperatorsOrdered) (blocks : List Block) :
    (Along (replayBlock R minVEffDelay chainId) (BlockSettles R minVEffDelay chainId) h blocks ↔
        Along (replayBlock R minVEffDelay chainId) (BlockAhead R minVEffDelay chainId) h
          blocks) ∧
      (Along (replayBlock R minVEffDelay chainId) (BlockAhead R minVEffDelay chainId) h blocks →
        (blocks.map fun b => b.header.view).Pairwise (· ≤ ·) →
        ∀ before block after, blocks = before ++ block :: after →
        ∀ op ∈ ((run (replayBlock R minVEffDelay chainId) h before).operating R minVEffDelay
            chainId block).operator,
        ∀ later ∈ (run (replayBlock R minVEffDelay chainId) h blocks).operator,
        ∀ v past, past ≤ block.header.view → later.keyAt v past = op.keyAt v past) := by
  have hstep : ∀ (h : Histories) (block : Block), h.OperatorsOrdered →
      (replayBlock R minVEffDelay chainId h block).OperatorsOrdered :=
    fun h block ho => ho.replayBlock block
  constructor
  · exact along_congr_of_invariant hstep (fun h block ho => blockSettles_iff ho block) ho
  · rintro hahead hviews before block after rfl op hop later hlater v past hpast
    obtain ⟨hbefore, hblock, hafter⟩ := hahead.append
    have hordered := hbefore.invariant (fun h block _ ho => hstep h block ho) ho
    have hlate : ∀ b ∈ after, past ≤ b.header.view := by
      intro b hb
      rw [List.map_append, List.map_cons] at hviews
      have hrest := (List.pairwise_cons.mp (List.pairwise_append.mp hviews).2.1).1
      have hle := hrest b.header.view (List.mem_map_of_mem hb)
      omega
    rw [run_append, run_cons] at hlater
    obtain ⟨op', hop', hsame⟩ := keyAt_run (hstep _ block hordered) hafter hlate hlater
    rw [hsame v, keyAt_replayBlock hordered hblock hop' hop v hpast]

end Histories

namespace Sample
open Histories

/-- Also rotations of operator keys, in a few bytes. -/
def operatorChanges : HistoryPrimitives :=
  { allChanges with
    decodeOperatorKeyRotation := fun body =>
      match body with
      | [validator, newKey, vEff] =>
        some ⟨⟨validator.toNat, newKey.toNat, vEff.toNat⟩, 0, 0⟩
      | _ => none }

/-- Validator 1 has the operator key 91. -/
def withOperator₁ : Histories :=
  { config.genesisHistories with operator := some (.withGenesis [(1, 91)]) }

/-- A block at view 10 gives validator 1 the operator key 92 from view `vEff` on. -/
def giving (vEff : UInt8) : Block :=
  blockOn root 10 0 [operatorKeyRotationTag ++ [1, 92, vEff]]

theorem operatorsOrdered_operator₁ : withOperator₁.OperatorsOrdered := by
  intro op hop
  obtain rfl := Option.some.inj hop
  exact ordered_operatorGenesis [(1, 91)]

theorem giving_settles : Along (replayBlock operatorChanges config.minVEffDelay chainId)
    (BlockSettles operatorChanges config.minVEffDelay chainId) withOperator₁ [giving 12] :=
  (settles_iff_ahead operatorChanges config.minVEffDelay chainId operatorsOrdered_operator₁
    [giving 12]).1.mpr (by decide +kernel)

/-- The key of view 7 changes at view 10. -/
theorem past_rewritten : ¬ Along (replayBlock operatorChanges config.minVEffDelay chainId)
      (BlockSettles operatorChanges config.minVEffDelay chainId) withOperator₁ [giving 5] ∧
    withOperator₁.operator.bind (·.keyAt 1 7) = some 91 ∧
    (run (replayBlock operatorChanges config.minVEffDelay chainId) withOperator₁
      [giving 5]).operator.bind (·.keyAt 1 7) = some 92 := by
  refine ⟨fun h => ?_, by decide +kernel, by decide +kernel⟩
  have hahead := (blockSettles_iff operatorsOrdered_operator₁ (giving 5)).mp h.1
  have hnot : ¬ BlockAhead operatorChanges config.minVEffDelay chainId withOperator₁
      (giving 5) := by
    decide +kernel
  exact hnot hahead

end Sample

end Boule
