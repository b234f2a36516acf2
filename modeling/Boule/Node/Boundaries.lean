import Boule.Node.History

/-! The validator sets of the views that a node has entered or has accepted messages of. -/
namespace Boule
open ConsensusNode

/-- The views of the message and of the certificate it carries. -/
def Event.views : Event → List ℕ
  | .proposalReceived verified =>
    [verified.value.payload.block.header.view, verified.value.payload.justify.view]
  | .voteReceived variant => [variant.signed.value.payload.view]
  | .newViewReceived verified => [verified.value.payload.highQc.view]
  | .pacemakerAdvance _ => []

namespace NodeInput

/-- The views of the messages and certificates that the input delivers. -/
def views : NodeInput → List ℕ
  | .dispatch _ validated (.safety event) =>
    if event.proposal?.isSome && !validated then [] else event.views
  | .dispatch _ _ (.pacemaker (.onQc view)) => [view]
  | .restore _ true manifest => [manifest.commitQc.view]
  | _ => []

def isRestore : NodeInput → Bool
  | .restore _ true _ => true
  | _ => false

end NodeInput

/-- A node with the highest view it has ever entered, the views of what it has accepted and
the blocks it has committed, over crashes and restarts. -/
structure Watch where
  machine : Machine
  entered : ℕ
  accepted : List ℕ
  committed : List Block

namespace Watch

def start : Watch where
  machine := .start
  entered := 0
  accepted := []
  committed := []

/-- The node has entered the view or accepted a message or certificate of it. -/
def Seen (w : Watch) (v : ℕ) : Prop := v ≤ w.entered ∨ v ∈ w.accepted

/-- Some view from `v` on has been seen. -/
def Reaches (w : Watch) (v : ℕ) : Prop := v ≤ w.entered ∨ ∃ u ∈ w.accepted, v ≤ u

instance (w : Watch) (v : ℕ) : Decidable (w.Reaches v) :=
  inferInstanceAs (Decidable (v ≤ w.entered ∨ ∃ u ∈ w.accepted, v ≤ u))

theorem reaches_iff {w : Watch} {v : ℕ} : w.Reaches v ↔ ∃ u, w.Seen u ∧ v ≤ u := by
  constructor
  · rintro (h | ⟨u, hu, h⟩)
    · exact ⟨w.entered, .inl le_rfl, h⟩
    · exact ⟨u, .inr hu, h⟩
  · rintro ⟨u, hu | hu, h⟩
    · exact .inl (h.trans hu)
    · exact .inr ⟨u, hu, h⟩

section
variable (P : Primitives) (V : Verifier) (R : ReconfigPrimitives) (cfg : NodeConfig)

def step (w : Watch) (input : NodeInput) : Watch :=
  let m := w.machine.step P V R cfg input
  { machine := m
    entered := max w.entered ((m.process.map fun p => p.node.currentView).getD 0)
    accepted := w.accepted ++ if w.machine.process.isSome then input.views else []
    committed := w.committed ++ (w.machine.process.bind fun p => p.commits P cfg input).toList }

/-- The history that the committed blocks make, from the configured set on. -/
def history (w : Watch) : ValidatorSetHistory :=
  w.committed.foldl (historyAfter R cfg.minVEffDelay (cfg.chainId P))
    (.fromGenesis cfg.validatorSet)

/-- The boundary of a change, if the history takes it, is above all views seen, or it repeats
the current set. -/
def Ahead (w : Watch) (h : ValidatorSetHistory) (change : ReconfigCommand × ValidatorSet) : Prop :=
  h.last.vEff < change.1.vEff → w.Reaches change.1.vEff → change.2 = h.currentSet

instance (w : Watch) (h : ValidatorSetHistory) : DecidablePred (w.Ahead h) :=
  fun _ => inferInstanceAs (Decidable (_ → _ → _))

/-- What the input commits asks for a boundary that is ahead in both histories. -/
def BoundaryAhead (w : Watch) (input : NodeInput) : Prop :=
  ∀ p ∈ w.machine.process, ∀ block ∈ p.commits P cfg input,
    ∀ change ∈ blockChange R cfg.minVEffDelay (cfg.chainId P) p.node.validatorHistory block,
      w.Ahead p.node.validatorHistory change ∧ w.Ahead p.node.core.state.validatorHistory change

instance (w : Watch) : DecidablePred (w.BoundaryAhead P R cfg) :=
  fun _ => inferInstanceAs (Decidable (∀ p ∈ w.machine.process, _))

/-- If the input commits a block, the sets of all views seen stay as they are. -/
def CommitKeepsSeen (w : Watch) (input : NodeInput) : Prop :=
  ∀ p ∈ w.machine.process, (p.commits P cfg input).isSome →
    ∀ p' ∈ (w.machine.step P V R cfg input).process, ∀ v, w.Seen v →
      p'.node.validatorHistory.setAt v = p.node.validatorHistory.setAt v ∧
      p'.node.core.state.validatorHistory.setAt v = p.node.core.state.validatorHistory.setAt v

end

section
variable {P : Primitives} {V : Verifier} {R : ReconfigPrimitives} {cfg : NodeConfig}

/-! ### One commit -/

theorem setAt_extend_of_seen {w : Watch} {h : ValidatorSetHistory}
    {change : ReconfigCommand × ValidatorSet} :
    (∀ v, w.Seen v → (h.extend change.1.vEff change.2).setAt v = h.setAt v) ↔ w.Ahead h change := by
  unfold Ahead
  rw [reaches_iff]
  simp only [ValidatorSetHistory.setAt_extend_iff]
  constructor
  · rintro hk hl ⟨u, hu, hle⟩
    exact hk u hu hl hle
  · intro ha v hv hl hle
    exact ha hl ⟨v, hv, hle⟩

/-- A commit keeps the sets of the views seen exactly when its boundary is ahead. -/
theorem commitKeepsSeen_iff (w : Watch) (input : NodeInput) :
    w.CommitKeepsSeen P V R cfg input ↔ w.BoundaryAhead P R cfg input := by
  unfold CommitKeepsSeen BoundaryAhead
  apply forall_congr'
  intro p
  apply forall_congr'
  intro hp
  cases hb : p.commits P cfg input with
  | none => simp
  | some block =>
    obtain ⟨p', hp', hc⟩ := commitHistory_step (V := V) (R := R) hp hb
    simp only [hp', Option.isSome_some, Option.mem_some_iff, forall_eq', forall_true_left, hc.node,
      hc.core, historyAfter]
    cases blockChange R cfg.minVEffDelay (cfg.chainId P) p.node.validatorHistory block with
    | none => simp [ValidatorSetHistory.extendBy]
    | some change =>
      simp only [ValidatorSetHistory.extendBy, Option.mem_some_iff, forall_eq',
        ← setAt_extend_of_seen]
      exact ⟨fun h => ⟨fun v hv => (h v hv).1, fun v hv => (h v hv).2⟩,
        fun h v hv => ⟨h.1 v hv, h.2 v hv⟩⟩

/-! ### Whole runs -/

theorem startsFrom_history (w : Watch) :
    (w.history P R cfg).StartsFrom cfg.validatorSet := by
  unfold history
  have hgenesis : (ValidatorSetHistory.fromGenesis cfg.validatorSet).StartsFrom
      cfg.validatorSet := ⟨[], rfl⟩
  generalize ValidatorSetHistory.fromGenesis cfg.validatorSet = h at hgenesis
  induction w.committed generalizing h with
  | nil => exact hgenesis
  | cons block blocks ih => exact ih _ (hgenesis.extendBy _)

/-- Disk, node and core have the history that the committed blocks make. -/
structure Synced (P : Primitives) (R : ReconfigPrimitives) (cfg : NodeConfig) (w : Watch) :
    Prop where
  stored : storedHistory cfg w.machine.storage.validatorHistory = some (w.history P R cfg)
  node : ∀ p ∈ w.machine.process, p.node.validatorHistory = w.history P R cfg
  core : ∀ p ∈ w.machine.process, p.node.core.state.validatorHistory = w.history P R cfg

theorem Synced.start : Synced P R cfg .start where
  stored := rfl
  node := fun p hp => absurd hp (by simp [Watch.start, Machine.start])
  core := fun p hp => absurd hp (by simp [Watch.start, Machine.start])

theorem history_step (w : Watch) (input : NodeInput) :
    (w.step P V R cfg input).history P R cfg =
      (w.machine.process.bind fun p => p.commits P cfg input).toList.foldl
        (historyAfter R cfg.minVEffDelay (cfg.chainId P)) (w.history P R cfg) :=
  List.foldl_append

theorem history_step_of_none {w : Watch} {input : NodeInput}
    (h : ∀ p ∈ w.machine.process, p.commits P cfg input = none) :
    (w.step P V R cfg input).history P R cfg = w.history P R cfg := by
  have hnone : (w.machine.process.bind fun p => p.commits P cfg input) = none :=
    Option.bind_eq_none_iff.mpr h
  rw [history_step, hnone]
  rfl

theorem history_step_of_some {w : Watch} {input : NodeInput} {p : Process} {block : Block}
    (hp : w.machine.process = some p) (hb : p.commits P cfg input = some block) :
    (w.step P V R cfg input).history P R cfg =
      historyAfter R cfg.minVEffDelay (cfg.chainId P) (w.history P R cfg) block := by
  rw [history_step, hp, Option.bind_some, hb]
  rfl

theorem Synced.step {w : Watch} (h : Synced P R cfg w) {input : NodeInput}
    (hi : input.isRestore = false) : Synced P R cfg (w.step P V R cfg input) := by
  cases historyStep_step P V R cfg w.machine input with
  | same p p' hp hp' hcommit hsame hst =>
    have hnone : ∀ q ∈ w.machine.process, q.commits P cfg input = none := by
      intro q hq
      obtain rfl := Option.some.inj (hp.symm.trans hq)
      exact hcommit
    have hh := history_step_of_none (V := V) (R := R) hnone
    constructor
    · rw [hh]
      exact (congrArg (storedHistory cfg) hst).trans h.stored
    · intro q hq
      obtain rfl := Option.some.inj (hp'.symm.trans hq)
      rw [hh, hsame.node]
      exact h.node p hp
    · intro q hq
      obtain rfl := Option.some.inj (hp'.symm.trans hq)
      rw [hh, hsame.core]
      exact h.core p hp
  | down hp' hcommit hst =>
    have hh := history_step_of_none (V := V) (R := R) hcommit
    constructor
    · rw [hh]
      exact (congrArg (storedHistory cfg) hst).trans h.stored
    · intro q hq
      exact absurd (hp'.symm.trans hq) (by simp)
    · intro q hq
      exact absurd (hp'.symm.trans hq) (by simp)
  | recovered p hp hp' hr hst =>
    have hnone : ∀ q ∈ w.machine.process, q.commits P cfg input = none := by
      intro q hq
      exact absurd (hp.symm.trans hq) (by simp)
    have hh := history_step_of_none (V := V) (R := R) hnone
    obtain ⟨hnode, hcore⟩ := recover_history hr h.stored w.startsFrom_history
    constructor
    · rw [hh]
      exact (congrArg (fun s => storedHistory cfg s.validatorHistory) hst).trans h.stored
    · intro q hq
      obtain rfl := Option.some.inj (hp'.symm.trans hq)
      rw [hh, hnode]
    · intro q hq
      obtain rfl := Option.some.inj (hp'.symm.trans hq)
      rw [hh, hcore]
  | committed p p' block hp hp' hcommit hc =>
    have hh := history_step_of_some (V := V) (R := R) hp hcommit
    have hnode : p'.node.validatorHistory = (w.step P V R cfg input).history P R cfg := by
      rw [hc.node, h.node p hp, hh]
    constructor
    · rcases hc.stored ((h.core p hp).trans (h.node p hp).symm) with hst | ⟨hst, hsame⟩
      · rw [← hnode]
        show loadOr (w.machine.step P V R cfg input).storage.validatorHistory _ _ = _
        rw [hst]
        exact toOption_eq_some.mpr (ValidatorSetHistory.fromPersisted_toPersisted _)
      · rw [← hnode, hsame, h.node p hp]
        exact (congrArg (storedHistory cfg) hst).trans h.stored
    · intro q hq
      obtain rfl := Option.some.inj (hp'.symm.trans hq)
      exact hnode
    · intro q hq
      obtain rfl := Option.some.inj (hp'.symm.trans hq)
      rw [hc.core, h.node p hp, h.core p hp, hh]
      rfl
  | restored p order manifest hp hrestore =>
    rw [hrestore] at hi
    simp [NodeInput.isRestore] at hi

theorem Synced.run {inputs : List NodeInput} (h : ∀ input ∈ inputs, input.isRestore = false) :
    Synced P R cfg (Boule.run (Watch.step P V R cfg) .start inputs) :=
  (Along.of_forall h).invariant (fun _ _ hi hw => hw.step hi) .start

theorem Seen.step {w : Watch} {v : ℕ} (h : w.Seen v) (input : NodeInput) :
    (w.step P V R cfg input).Seen v := by
  rcases h with h | h
  · exact .inl (h.trans (le_max_left _ _))
  · exact .inr (List.mem_append_left _ h)

/-- A step with its boundary ahead leaves the sets of all views seen as they are. -/
theorem setAt_history_step {w : Watch} (hs : Synced P R cfg w) {input : NodeInput}
    (ha : w.BoundaryAhead P R cfg input) {v : ℕ} (hv : w.Seen v) :
    ((w.step P V R cfg input).history P R cfg).setAt v = (w.history P R cfg).setAt v := by
  cases hb : w.machine.process.bind fun p => p.commits P cfg input with
  | none => rw [history_step_of_none (Option.bind_eq_none_iff.mp hb)]
  | some block =>
    obtain ⟨p, hp, hcommit⟩ := Option.bind_eq_some_iff.mp hb
    have hahead := ha p hp block hcommit
    rw [hs.node p hp] at hahead
    rw [history_step_of_some hp hcommit, historyAfter]
    cases hc : blockChange R cfg.minVEffDelay (cfg.chainId P) (w.history P R cfg) block with
    | none => rfl
    | some change => exact setAt_extend_of_seen.mpr (hahead change hc).1 v hv

/-- The set of a view seen is the same ever after. -/
theorem setAt_history_run {w : Watch} (hs : Synced P R cfg w) {inputs : List NodeInput}
    (hr : ∀ input ∈ inputs, input.isRestore = false)
    (ha : Along (Watch.step P V R cfg) (Watch.BoundaryAhead P R cfg) w inputs) {v : ℕ}
    (hv : w.Seen v) :
    ((run (Watch.step P V R cfg) w inputs).history P R cfg).setAt v =
      (w.history P R cfg).setAt v := by
  induction inputs generalizing w with
  | nil => rfl
  | cons input inputs ih =>
    rw [run_cons, ih (hs.step (hr input (List.mem_cons_self ..)))
      (fun i hi => hr i (List.mem_cons_of_mem _ hi)) ha.2 (hv.step input)]
    exact setAt_history_step hs ha.1 hv

/-- What a node used for a view it had seen is what the blocks it commits in the end say. -/
theorem setAt_of_prefix {inputs xs : List NodeInput}
    (ha : Along (Watch.step P V R cfg) (Watch.BoundaryAhead P R cfg) .start inputs)
    (hr : ∀ input ∈ inputs, input.isRestore = false) (hx : xs <+: inputs) {p : Process}
    (hp : (run (Watch.step P V R cfg) .start xs).machine.process = some p) {v : ℕ}
    (hv : (run (Watch.step P V R cfg) .start xs).Seen v) :
    p.node.validatorHistory.setAt v =
        ((run (Watch.step P V R cfg) .start inputs).history P R cfg).setAt v ∧
      p.node.core.state.validatorHistory.setAt v =
        ((run (Watch.step P V R cfg) .start inputs).history P R cfg).setAt v := by
  obtain ⟨ys, rfl⟩ := hx
  have hs : Synced P R cfg (run (Watch.step P V R cfg) .start xs) :=
    .run fun input hi => hr input (List.mem_append_left _ hi)
  rw [run_append, setAt_history_run hs (fun input hi => hr input (List.mem_append_right _ hi))
    ha.append.2 hv, hs.node p hp, hs.core p hp]
  exact ⟨rfl, rfl⟩

end

end Watch

/-- Two nodes of one network. -/
structure SameNetwork (P : Primitives) (cfg cfg' : NodeConfig) : Prop where
  validatorSet : cfg'.validatorSet = cfg.validatorSet
  minVEffDelay : cfg'.minVEffDelay = cfg.minVEffDelay
  chainId : cfg'.chainId P = cfg.chainId P

/-- In every run, commits leave the sets of all views seen as they are exactly when the
boundaries they insert are ahead. Two nodes that have committed the same blocks in such runs
have used the same set for every view that both have seen, whenever they looked. -/
theorem seen_sets_kept (P : Primitives) (V V' : Verifier) (R : ReconfigPrimitives)
    {cfg cfg' : NodeConfig} (hnet : SameNetwork P cfg cfg') (inputs inputs' : List NodeInput) :
    (Along (Watch.step P V R cfg) (Watch.CommitKeepsSeen P V R cfg) .start inputs ↔
      Along (Watch.step P V R cfg) (Watch.BoundaryAhead P R cfg) .start inputs) ∧
    (Along (Watch.step P V R cfg) (Watch.BoundaryAhead P R cfg) .start inputs →
      Along (Watch.step P V' R cfg') (Watch.BoundaryAhead P R cfg') .start inputs' →
      (∀ input ∈ inputs ++ inputs', input.isRestore = false) →
      (run (Watch.step P V R cfg) .start inputs).committed =
        (run (Watch.step P V' R cfg') .start inputs').committed →
      ∀ xs xs', xs <+: inputs → xs' <+: inputs' →
      ∀ p ∈ (run (Watch.step P V R cfg) .start xs).machine.process,
      ∀ p' ∈ (run (Watch.step P V' R cfg') .start xs').machine.process,
      ∀ v, (run (Watch.step P V R cfg) .start xs).Seen v →
        (run (Watch.step P V' R cfg') .start xs').Seen v →
        p.node.validatorHistory.setAt v = p'.node.validatorHistory.setAt v ∧
        p.node.core.state.validatorHistory.setAt v =
          p'.node.core.state.validatorHistory.setAt v) := by
  refine ⟨Along.congr Watch.commitKeepsSeen_iff .start inputs, ?_⟩
  intro ha ha' hr hcommitted xs xs' hx hx' p hp p' hp' v hv hv'
  have hhistory : (run (Watch.step P V R cfg) .start inputs).history P R cfg =
      (run (Watch.step P V' R cfg') .start inputs').history P R cfg' := by
    unfold Watch.history
    rw [hcommitted, hnet.validatorSet, hnet.minVEffDelay, hnet.chainId]
  obtain ⟨hn, hc⟩ := Watch.setAt_of_prefix ha
    (fun input hi => hr input (List.mem_append_left _ hi)) hx hp hv
  obtain ⟨hn', hc'⟩ := Watch.setAt_of_prefix ha'
    (fun input hi => hr input (List.mem_append_right _ hi)) hx' hp' hv'
  rw [hn, hn', hc, hc', hhistory]
  exact ⟨rfl, rfl⟩

namespace Sample

/-- The encoding of a command with one weight change: no additions, no removals, one change;
ids, weights and views below 128 are one byte each. -/
def weightChanges : ReconfigPrimitives where
  decodeBody := fun body =>
    match body with
    | [0, 0, 1, id, weight, vEff] =>
      some ⟨[], [], [⟨id.toNat, weight.toUInt64⟩], vEff.toNat⟩
    | _ => none
  popVerifies := fun _ _ => true
  consentVerifies := fun _ _ _ => true

/-- Validator 4 gets weight 2 from view 14 on. -/
def changeAt14 : Bytes := reconfigTag ++ [0, 0, 1, 4, 2, 14]

def changing : Block := blockOn root 10 0 [changeAt14]
def afterChange : Block := blockOn changing 11 0 []
def afterChange₂ : Block := blockOn afterChange 12 0 []

/-- The block whose proposal commits the change. -/
def deciding (view : ℕ) : Block := blockOn afterChange₂ view 0 []

def watchNode : Watch → NodeInput → Watch :=
  Watch.step timed verifier weightChanges config

/-- The proposals up to view 12, all interpreted. -/
def proposeChange : List NodeInput :=
  [.boot, proposed changing (genesisQc timed root validators),
    proposed afterChange (certificate changing),
    proposed afterChange₂ (certificate afterChange)] ++ rounds 12

def advanceByQc (view : ℕ) : NodeInput := .dispatch order true (.pacemaker (.onQc view))

def advanceByTimeout (view : ℕ) : NodeInput :=
  .dispatch order true (.pacemaker (.onTimeoutCert view))

/-- The change is committed on time, in view 13. -/
def onTime : List NodeInput :=
  proposeChange ++ [advanceByQc 12, proposed (deciding 13) (certificate afterChange₂)] ++ rounds 12

/-- The change is committed after timeouts, in view 100. -/
def late : List NodeInput :=
  proposeChange ++ [advanceByTimeout 99] ++ rounds 6 ++
    [proposed (deciding 100) (certificate afterChange₂)] ++ rounds 12

/-- The node that was on time goes through the timeouts later. -/
def onTimeThenLate : List NodeInput := onTime ++ [advanceByTimeout 99]

theorem sets_kept_on_time :
    (run watchNode .start onTime).committed = [changing] ∧
    Along watchNode (Watch.CommitKeepsSeen timed verifier weightChanges config) .start onTime ∧
    ∀ xs xs', xs <+: onTime → xs' <+: onTimeThenLate →
      ∀ p ∈ (run watchNode .start xs).machine.process,
      ∀ p' ∈ (run watchNode .start xs').machine.process,
      ∀ v, (run watchNode .start xs).Seen v → (run watchNode .start xs').Seen v →
        p.node.validatorHistory.setAt v = p'.node.validatorHistory.setAt v ∧
        p.node.core.state.validatorHistory.setAt v =
          p'.node.core.state.validatorHistory.setAt v := by
  have h := seen_sets_kept timed verifier verifier weightChanges
    (⟨rfl, rfl, rfl⟩ : SameNetwork timed config config) onTime onTimeThenLate
  refine ⟨by decide +kernel, h.1.mpr (by decide +kernel), ?_⟩
  exact h.2 (by decide +kernel) (by decide +kernel) (by decide +kernel) (by decide +kernel)

/-- The change of view 10 is committed in view 100: the set of the current view changes under
the node, and a node that committed the same block on time has another set in view 100. -/
theorem current_set_rewritten :
    (∃ p ∈ (run watchNode .start (late.take 29)).machine.process,
      ∃ p' ∈ (run watchNode .start (late.take 30)).machine.process,
        p.commits timed config (.interpret ⟨0, fun _ => true, none, false⟩) = some changing ∧
        p.node.currentView = 100 ∧
        p'.node.validatorHistory.setAt 100 ≠ p.node.validatorHistory.setAt 100) ∧
    (run watchNode .start late).committed = (run watchNode .start onTimeThenLate).committed ∧
    ∃ p ∈ (run watchNode .start (late.take 29)).machine.process,
      ∃ p' ∈ (run watchNode .start onTimeThenLate).machine.process,
        p.node.currentView = 100 ∧ p'.node.currentView = 100 ∧
        p.node.validatorHistory.setAt 100 ≠ p'.node.validatorHistory.setAt 100 := by
  decide +kernel

end Sample

end Boule
