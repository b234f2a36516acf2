import Boule.HistoryCommitment

/-! Histories that answer every lookup alike: the replay of a block and the commitment do not tell
them apart. -/
namespace Boule

/-! ### Optional values -/

section
variable {α β γ : Type}

theorem rel_refl {r : α → α → Prop} (h : ∀ a, r a a) (x : Option α) : Option.Rel r x x := by
  cases x with
  | none => exact .none
  | some a => exact .some (h a)

theorem rel_symm {r : α → α → Prop} (h : ∀ {a b}, r a b → r b a) {x y : Option α}
    (hxy : Option.Rel r x y) : Option.Rel r y x := by
  cases hxy with
  | none => exact .none
  | some hab => exact .some (h hab)

theorem rel_trans {r : α → α → Prop} (h : ∀ {a b c}, r a b → r b c → r a c) {x y z : Option α}
    (hxy : Option.Rel r x y) (hyz : Option.Rel r y z) : Option.Rel r x z := by
  cases hxy with
  | none => exact hyz
  | some hab =>
    cases hyz with
    | some hbc => exact .some (h hab hbc)

theorem map_eq_of_rel {r : α → β → Prop} {f : α → γ} {g : β → γ} (h : ∀ {a b}, r a b → f a = g b)
    {x : Option α} {y : Option β} (hxy : Option.Rel r x y) : x.map f = y.map g := by
  cases hxy with
  | none => rfl
  | some hab => exact congrArg some (h hab)

theorem rel_map {α' β' : Type} {r : α → β → Prop} {r' : α' → β' → Prop} {f : α → α'} {g : β → β'}
    (h : ∀ {a b}, r a b → r' (f a) (g b)) {x : Option α} {y : Option β}
    (hxy : Option.Rel r x y) : Option.Rel r' (x.map f) (y.map g) := by
  cases hxy with
  | none => exact .none
  | some hab => exact .some (h hab)

theorem rel_bind {α' β' : Type} {r : α → β → Prop} {r' : α' → β' → Prop} {f : α → Option α'}
    {g : β → Option β'} (h : ∀ a b, r a b → Option.Rel r' (f a) (g b)) {x : Option α}
    {y : Option β} (hxy : Option.Rel r x y) : Option.Rel r' (x.bind f) (y.bind g) := by
  cases hxy with
  | none => exact .none
  | some hab => exact h _ _ hab

theorem rel_bind_same {α' β' : Type} {r' : α' → β' → Prop} {f : α → Option α'}
    {g : α → Option β'} (h : ∀ a, Option.Rel r' (f a) (g a)) (x : Option α) :
    Option.Rel r' (x.bind f) (x.bind g) := by
  cases x with
  | none => exact .none
  | some a => exact h a

end

/-- The persisted form is in the order of the ids. -/
theorem persistKeys_eq {t t' : Table NodeId (List KeyEntry)} (h : t.Same t') :
    persistKeys t = persistKeys t' := by
  have hsort := List.perm_insertionSort (fun a b : NodeId × List KeyEntry => a.1 ≤ b.1) t.toList
  have hsort' := List.perm_insertionSort (fun a b : NodeId × List KeyEntry => a.1 ≤ b.1) t'.toList
  have hperm := (hsort.trans h.toList_perm).trans hsort'.symm
  unfold persistKeys
  congr 2
  refine List.Perm.eq_of_pairwise ?_ (List.pairwise_insertionSort _ _)
    (List.pairwise_insertionSort _ _) hperm
  intro a b ha hb hab hba
  have ha' := (t.mem_toList a.1 a.2).mp (hsort.mem_iff.mp ha)
  have hb' := (t'.mem_toList b.1 b.2).mp (hsort'.mem_iff.mp hb)
  have hkey : a.1 = b.1 := Nat.le_antisymm hab hba
  rw [← hkey, ← h a.1, ha'] at hb'
  exact Prod.ext hkey (Option.some.inj hb')

/-! ### Histories -/

/-- The lookups in the history of signing keys. -/
structure ValidatorKeyHistory.Alike (h h' : ValidatorKeyHistory) : Prop where
  entries : h.byStableId.Same h'.byStableId
  index : h.pubkeyToStableId.Same h'.pubkeyToStableId

def BlsKeyHistory.Alike (h h' : BlsKeyHistory) : Prop := h.byStableId.Same h'.byStableId

def OperatorKeyHistory.Alike (h h' : OperatorKeyHistory) : Prop :=
  h.byStableId.Same h'.byStableId

namespace Histories

structure Alike (h h' : Histories) : Prop where
  set : h.set = h'.set
  key : h.key.Alike h'.key
  bls : Option.Rel BlsKeyHistory.Alike h.bls h'.bls
  operator : Option.Rel OperatorKeyHistory.Alike h.operator h'.operator

theorem Alike.refl (h : Histories) : h.Alike h where
  set := rfl
  key := ⟨.refl _, .refl _⟩
  bls := rel_refl (r := BlsKeyHistory.Alike) (fun _ => Table.Same.refl _) _
  operator := rel_refl (r := OperatorKeyHistory.Alike) (fun _ => Table.Same.refl _) _

theorem Alike.symm {h h' : Histories} (ha : h.Alike h') : h'.Alike h where
  set := ha.set.symm
  key := ⟨ha.key.entries.symm, ha.key.index.symm⟩
  bls := rel_symm (fun hb => Table.Same.symm hb) ha.bls
  operator := rel_symm (fun ho => Table.Same.symm ho) ha.operator

theorem Alike.trans {h h' h'' : Histories} (ha : h.Alike h') (ha' : h'.Alike h'') :
    h.Alike h'' where
  set := ha.set.trans ha'.set
  key := ⟨ha.key.entries.trans ha'.key.entries, ha.key.index.trans ha'.key.index⟩
  bls := rel_trans (r := BlsKeyHistory.Alike) (fun hb hb' => Table.Same.trans hb hb') ha.bls
    ha'.bls
  operator := rel_trans (r := OperatorKeyHistory.Alike) (fun ho ho' => Table.Same.trans ho ho')
    ha.operator ha'.operator

end Histories

/-- What is persisted only depends on the lookups. -/
theorem Histories.Alike.persisted {h h' : Histories} (ha : h.Alike h') :
    h.key.toPersisted = h'.key.toPersisted ∧
      h.bls.map BlsKeyHistory.toPersisted = h'.bls.map BlsKeyHistory.toPersisted ∧
      h.operator.map OperatorKeyHistory.toPersisted =
        h'.operator.map OperatorKeyHistory.toPersisted :=
  ⟨persistKeys_eq ha.key.entries, map_eq_of_rel (fun hb => persistKeys_eq hb) ha.bls,
    map_eq_of_rel (fun ho => persistKeys_eq ho) ha.operator⟩

theorem commitment_eq_of_alike (R : HistoryPrimitives) {h h' : Histories} (ha : h.Alike h') :
    validatorHistoryCommitmentV2 R h = validatorHistoryCommitmentV2 R h' := by
  obtain ⟨hkey, hbls, hoperator⟩ := ha.persisted
  unfold validatorHistoryCommitmentV2
  rw [ha.set, hkey, hbls, hoperator]

/-! ### Rotations -/

theorem sameOutcome_appendEntry {t t' : Table NodeId (List KeyEntry)} (h : t.Same t')
    (stableId : NodeId) (vEff key : ℕ) :
    SameOutcome Table.Same (appendEntry t stableId vEff key)
      (appendEntry t' stableId vEff key) := by
  unfold appendEntry
  rw [h stableId]
  apply SameOutcome.bind_same
  intro entries
  apply SameOutcome.bind_same
  intro last
  apply SameOutcome.bind_same
  intro _
  exact .ok (h.insert _ _)

theorem keepOnError_same {ε α β : Type} {r : α → β → Prop} {x : Except ε α} {y : Except ε β}
    {a : α} {b : β} (h : SameOutcome r x y) (hab : r a b) :
    r (keepOnError x a) (keepOnError y b) := by
  cases h with
  | ok h => exact h
  | error e => exact hab

namespace ValidatorKeyHistory
variable {h h' : ValidatorKeyHistory}

theorem Alike.keyAt (ha : h.Alike h') (validator : ValidatorId) (view : ℕ) :
    h.keyAt validator view = h'.keyAt validator view := by
  unfold ValidatorKeyHistory.keyAt
  rw [ha.entries]

theorem Alike.validatorFor (ha : h.Alike h') (pubkey : NodeId) :
    h.validatorFor pubkey = h'.validatorFor pubkey := ha.index pubkey

theorem Alike.currentKey (ha : h.Alike h') (pubkey : NodeId) :
    h.currentKey pubkey = h'.currentKey pubkey := by
  unfold ValidatorKeyHistory.currentKey
  rw [ha.index pubkey]
  congr 1
  funext stableId
  rw [ha.entries stableId]

theorem Alike.pendingRotationNewKey (ha : h.Alike h') (validator : NodeId)
    (cancellingVEff commitView : ℕ) :
    h.pendingRotationNewKey validator cancellingVEff commitView =
      h'.pendingRotationNewKey validator cancellingVEff commitView := by
  unfold ValidatorKeyHistory.pendingRotationNewKey
  rw [ha.index validator]
  congr 1
  funext stableId
  rw [ha.entries stableId]

theorem Alike.applyRotation (ha : h.Alike h') (rotation : ValidatorKeyRotation)
    (commitView : ℕ) :
    SameOutcome Alike (h.applyRotation rotation commitView)
      (h'.applyRotation rotation commitView) := by
  unfold ValidatorKeyHistory.applyRotation
  rw [ha.index rotation.validator, ha.index rotation.newPubkey]
  apply SameOutcome.bind_same
  intro _
  apply SameOutcome.bind_same
  intro stableId
  apply SameOutcome.bind_same
  intro _
  rw [ha.entries stableId]
  apply SameOutcome.bind_same
  intro entries
  apply SameOutcome.bind_same
  intro last
  apply SameOutcome.bind_same
  intro _
  exact .ok ⟨ha.entries.insert _ _, ha.index.insert _ _⟩

theorem Alike.cancelPendingRotation (ha : h.Alike h') (validator : NodeId)
    (cancellingVEff commitView : ℕ) :
    SameOutcome Alike (h.cancelPendingRotation validator cancellingVEff commitView)
      (h'.cancelPendingRotation validator cancellingVEff commitView) := by
  unfold ValidatorKeyHistory.cancelPendingRotation
  rw [ha.index validator]
  apply SameOutcome.bind_same
  intro stableId
  rw [ha.entries stableId]
  apply SameOutcome.bind_same
  intro entries
  apply SameOutcome.bind_same
  intro last
  apply SameOutcome.bind_same
  intro _
  exact .ok ⟨ha.entries.insert _ _, ha.index.erase _⟩

theorem Alike.addValidator (ha : h.Alike h') (pubkey : NodeId) (vEff : ℕ) :
    SameOutcome Alike (h.addValidator pubkey vEff) (h'.addValidator pubkey vEff) := by
  unfold ValidatorKeyHistory.addValidator
  rw [ha.index pubkey]
  apply SameOutcome.bind_same
  intro _
  exact .ok ⟨ha.entries.insert _ _, ha.index.insert _ _⟩

end ValidatorKeyHistory

theorem BlsKeyHistory.Alike.cancel {b b' : BlsKeyHistory} (hb : b.Alike b')
    (stableId cancellingVEff commitView : ℕ) :
    (keepOnError (b.cancelPendingRotation stableId cancellingVEff commitView) b).Alike
      (keepOnError (b'.cancelPendingRotation stableId cancellingVEff commitView) b') := by
  refine keepOnError_same ?_ hb
  unfold BlsKeyHistory.cancelPendingRotation
  rw [hb stableId]
  apply SameOutcome.bind_same
  intro entries
  apply SameOutcome.bind_same
  intro last
  apply SameOutcome.bind_same
  intro _
  exact .ok (Table.Same.insert hb _ _)

theorem alike_rotateBls {bls bls' : Option BlsKeyHistory}
    (h : Option.Rel BlsKeyHistory.Alike bls bls') (stable : NodeId)
    (rotation : ValidatorKeyRotation) :
    Option.Rel BlsKeyHistory.Alike (rotateBls bls stable rotation)
      (rotateBls bls' stable rotation) := by
  unfold rotateBls
  cases rotation.newBlsPubkey with
  | none => exact h
  | some pk =>
    apply rel_map _ h
    intro b b' hb
    refine keepOnError_same ?_ hb
    exact (sameOutcome_appendEntry hb stable rotation.vEff pk).map fun _ _ hs => hs

section
variable {R : HistoryPrimitives} {chainId : ChainId} {commitView minVEffDelay : ℕ}

variable (R chainId commitView) in
theorem ValidatorKeyHistory.Alike.acceptedRotation {key key' : ValidatorKeyHistory}
    (ha : key.Alike key') (bytes : Bytes) :
    Option.Rel (fun a b => a.1 = b.1 ∧ a.2.1 = b.2.1 ∧ a.2.2.Alike b.2.2)
      (Boule.acceptedRotation R chainId commitView key bytes)
      (Boule.acceptedRotation R chainId commitView key' bytes) := by
  unfold Boule.acceptedRotation
  simp only [Option.bind_eq_bind]
  apply rel_bind_same
  intro env
  rw [ha.currentKey]
  apply rel_bind_same
  intro current
  apply rel_bind_same
  intro _
  apply rel_bind_same
  intro _
  refine rel_bind ?_ (ha.applyRotation env.payload commitView).toOption
  intro k k' hk
  exact .some ⟨rfl, ha.validatorFor _, hk⟩

namespace Histories
variable {h h' : Histories}

theorem Alike.applyRotationCommand (ha : h.Alike h') (bytes : Bytes) :
    (Boule.applyRotationCommand R chainId commitView h bytes).Alike
      (Boule.applyRotationCommand R chainId commitView h' bytes) := by
  unfold Boule.applyRotationCommand
  have hacc := ha.key.acceptedRotation R chainId commitView bytes
  generalize Boule.acceptedRotation R chainId commitView h.key bytes = a at hacc
  generalize Boule.acceptedRotation R chainId commitView h'.key bytes = b at hacc
  cases hacc with
  | none => exact ha
  | @some a b hab =>
    obtain ⟨rotation, stable, key⟩ := a
    obtain ⟨rotation', stable', key'⟩ := b
    obtain ⟨hr, hs, hk⟩ := hab
    obtain rfl : rotation = rotation' := hr
    obtain rfl : stable = stable' := hs
    cases stable with
    | none => exact ⟨ha.set, hk, ha.bls, ha.operator⟩
    | some stable => exact ⟨ha.set, hk, alike_rotateBls ha.bls stable rotation, ha.operator⟩

/-- The result of a command that says whether it was one of its kind. -/
def AlikeFlagged (r r' : Histories × Bool) : Prop := r.1.Alike r'.1 ∧ r.2 = r'.2

theorem Alike.applyRotationCancelCommand (ha : h.Alike h') (bytes : Bytes) :
    SameOutcome AlikeFlagged (Boule.applyRotationCancelCommand R chainId commitView h bytes)
      (Boule.applyRotationCancelCommand R chainId commitView h' bytes) := by
  unfold Boule.applyRotationCancelCommand
  split_ifs
  · exact .ok ⟨ha, rfl⟩
  · apply SameOutcome.bind_same
    intro cancel
    simp only [ha.key.pendingRotationNewKey, ha.key.validatorFor]
    apply SameOutcome.bind_same
    intro pendingNew
    apply SameOutcome.bind_same
    intro stable
    rw [ha.key.keyAt]
    apply SameOutcome.bind_same
    intro current
    apply SameOutcome.bind_same
    intro _
    refine SameOutcome.bind ((ha.key.cancelPendingRotation _ _ _).mapError _) ?_
    intro k k' hk
    refine .ok ⟨⟨ha.set, hk, ?_, ha.operator⟩, rfl⟩
    exact rel_map (fun hb => hb.cancel _ _ _) ha.bls

theorem Alike.applyOperatorRotationCommand {o o' : OperatorKeyHistory}
    (ho : o.Alike o') (ha : h.Alike h') (bytes : Bytes) :
    SameOutcome AlikeFlagged (Boule.applyOperatorRotationCommand R chainId commitView o h bytes)
      (Boule.applyOperatorRotationCommand R chainId commitView o' h' bytes) := by
  unfold Boule.applyOperatorRotationCommand
  split_ifs
  · exact .ok ⟨ha, rfl⟩
  · apply SameOutcome.bind_same
    intro env
    rw [ha.key.validatorFor]
    apply SameOutcome.bind_same
    intro stable
    unfold OperatorKeyHistory.keyAt
    rw [ho stable]
    apply SameOutcome.bind_same
    intro operatorPk
    apply SameOutcome.bind_same
    intro _
    apply SameOutcome.bind_same
    intro _
    refine SameOutcome.bind ((ha.key.applyRotation _ _).mapError _) ?_
    intro k k' hk
    exact .ok ⟨⟨ha.set, hk, alike_rotateBls ha.bls stable env.payload, ha.operator⟩, rfl⟩

end Histories

theorem sameOutcome_applyOperatorKeyRotationCommand {o o' : OperatorKeyHistory}
    (ho : o.Alike o') (bytes : Bytes) :
    SameOutcome (fun r r' => r.1.Alike r'.1 ∧ r.2 = r'.2)
      (applyOperatorKeyRotationCommand R chainId commitView o bytes)
      (applyOperatorKeyRotationCommand R chainId commitView o' bytes) := by
  unfold applyOperatorKeyRotationCommand
  split_ifs
  · exact .ok ⟨ho, rfl⟩
  · apply SameOutcome.bind_same
    intro env
    unfold OperatorKeyHistory.keyAt
    rw [ho env.payload.validator]
    apply SameOutcome.bind_same
    intro current
    apply SameOutcome.bind_same
    intro _
    unfold OperatorKeyHistory.applyRotation
    have hrotated : SameOutcome OperatorKeyHistory.Alike
        ((appendEntry o.byStableId env.payload.validator env.payload.vEff
          env.payload.newOperatorPubkey).map OperatorKeyHistory.mk)
        ((appendEntry o'.byStableId env.payload.validator env.payload.vEff
          env.payload.newOperatorPubkey).map OperatorKeyHistory.mk) :=
      (sameOutcome_appendEntry ho _ _ _).map fun _ _ hs => hs
    refine SameOutcome.bind (hrotated.mapError _) ?_
    intro o o' hs
    exact .ok ⟨hs, rfl⟩

/-! ### The replay of a block -/

theorem foldl_same {α β γ : Type} {r : α → β → Prop} {f : α → γ → α} {g : β → γ → β}
    (hf : ∀ {a b} c, r a b → r (f a c) (g b c)) {a : α} {b : β} (hab : r a b) (cs : List γ) :
    r (cs.foldl f a) (cs.foldl g b) := by
  induction cs generalizing a b with
  | nil => exact hab
  | cons c cs ih => exact ih (hf c hab)

/-- A loop that passes over failed commands. -/
theorem getD_same {ε α β : Type} {r : α → β → Prop} {x : Except ε (α × Bool)}
    {y : Except ε (β × Bool)} {a : α} {b : β}
    (h : SameOutcome (fun p q => r p.1 q.1 ∧ p.2 = q.2) x y) (hab : r a b) :
    r ((x.toOption.map Prod.fst).getD a) ((y.toOption.map Prod.fst).getD b) := by
  cases h with
  | ok h => exact h.1
  | error e => exact hab

theorem OperatorKeyHistory.Alike.applyRotations {o o' : OperatorKeyHistory} (ho : o.Alike o')
    (block : Block) : (applyOperatorKeyRotations R chainId block o).Alike
      (applyOperatorKeyRotations R chainId block o') :=
  foldl_same (r := OperatorKeyHistory.Alike)
    (fun bytes ho => getD_same (sameOutcome_applyOperatorKeyRotationCommand ho bytes) ho) ho
    block.commands

variable (R chainId) in
theorem Histories.Alike.applyRotations {h h' : Histories} (ha : h.Alike h') (block : Block) :
    (applyRotationCommandsToHistories R chainId block h).Alike
      (applyRotationCommandsToHistories R chainId block h') := by
  have hrotated : (block.commands.foldl (Boule.applyRotationCommand R chainId block.header.view)
      h).Alike (block.commands.foldl (Boule.applyRotationCommand R chainId block.header.view) h') :=
    foldl_same (r := Alike) (fun bytes ha => ha.applyRotationCommand bytes) ha block.commands
  have hcancelled : (cancelRotations R chainId block
        (block.commands.foldl (Boule.applyRotationCommand R chainId block.header.view) h)).Alike
      (cancelRotations R chainId block
        (block.commands.foldl (Boule.applyRotationCommand R chainId block.header.view) h')) :=
    foldl_same (r := Alike) (fun bytes ha => getD_same (ha.applyRotationCancelCommand bytes) ha)
      hrotated block.commands
  unfold applyRotationCommandsToHistories
  simp only
  generalize cancelRotations R chainId block (block.commands.foldl
    (Boule.applyRotationCommand R chainId block.header.view) h) = c at hcancelled
  generalize cancelRotations R chainId block (block.commands.foldl
    (Boule.applyRotationCommand R chainId block.header.view) h') = c' at hcancelled
  obtain ⟨set, key, bls, operator⟩ := c
  obtain ⟨set', key', bls', operator'⟩ := c'
  have hop : Option.Rel OperatorKeyHistory.Alike operator operator' := hcancelled.operator
  cases hop with
  | none => exact hcancelled
  | @some o o' ho =>
    have hoperated : (applyOperatorRotations R chainId o block ⟨set, key, bls, some o⟩).Alike
        (applyOperatorRotations R chainId o' block ⟨set', key', bls', some o'⟩) :=
      foldl_same (r := Alike)
        (fun bytes ha => getD_same (ha.applyOperatorRotationCommand ho bytes) ha) hcancelled
        block.commands
    exact ⟨hoperated.set, hoperated.key, hoperated.bls, .some (ho.applyRotations block)⟩

theorem Table.Same.register {t t' : Table NodeId (List KeyEntry)} (h : t.Same t')
    (stableId : NodeId) (vEff key : ℕ) :
    (Boule.register t stableId vEff key).Same (Boule.register t' stableId vEff key) := by
  unfold Boule.register
  rw [h.containsKey]
  split_ifs
  · exact h
  · exact h.insert _ _

theorem ValidatorKeyHistory.Alike.seatMembers {key key' : ValidatorKeyHistory}
    (ha : key.Alike key') (vEff : ℕ) (members : List ValidatorId) :
    (Boule.seatMembers key vEff members).Alike (Boule.seatMembers key' vEff members) := by
  refine foldl_same (r := Alike) ?_ ha members
  intro k k' member hk
  rw [hk.entries.containsKey]
  split_ifs
  · exact hk
  · exact keepOnError_same (hk.addValidator member vEff) hk

theorem Histories.Alike.applyReconfigCommand {h h' : Histories} (ha : h.Alike h')
    (blockView : ℕ) (bytes : Bytes) :
    (applyReconfigCommandToSetHistory R minVEffDelay chainId blockView h bytes).Alike
      (applyReconfigCommandToSetHistory R minVEffDelay chainId blockView h' bytes) := by
  unfold applyReconfigCommandToSetHistory
  rw [← ha.set]
  cases ConsensusNode.reconfigChange R.toReconfigPrimitives minVEffDelay chainId h.set blockView
    bytes with
  | none => exact ha
  | some change =>
    obtain ⟨cmd, newSet⟩ := change
    simp only
    cases h.set.insertBoundary cmd.vEff newSet with
    | error e => exact ha
    | ok set =>
      refine ⟨rfl, ha.key.seatMembers cmd.vEff newSet.members, ?_, ?_⟩
      · refine rel_map ?_ ha.bls
        intro b b' hb
        refine foldl_same (r := Table.Same) ?_ hb cmd.adds
        intro t t' entry ht
        cases entry.blsPop with
        | none => exact ht
        | some pop =>
          simp only
          split_ifs
          · exact ht.register _ _ _
          · exact ht
      · refine rel_map ?_ ha.operator
        intro o o' ho
        refine foldl_same (r := Table.Same) ?_ ho cmd.adds
        intro t t' entry ht
        cases entry.operatorPubkey with
        | none => exact ht
        | some key =>
          simp only
          split_ifs
          · exact ht.register _ _ _
          · exact ht

/-- The replay of a block answers lookups alike when it starts from histories that do. -/
theorem Histories.Alike.replayBlock {h h' : Histories} (ha : h.Alike h') (block : Block) :
    (Boule.replayBlock R minVEffDelay chainId h block).Alike
      (Boule.replayBlock R minVEffDelay chainId h' block) :=
  Alike.applyRotations R chainId (foldl_same (r := Alike)
    (fun bytes ha => ha.applyReconfigCommand block.header.view bytes) ha block.commands) block

end

end Boule
