import Boule.Node.Ledger
import Boule.Node.Restore
import Boule.Node.Timeouts

/-! The role of a node. It is computed once, when the node starts, from the set of view zero;
committed reconfigurations change the set of the current view and leave the role as it is. -/
namespace Boule
open ConsensusNode

/-- What a full node keeps to itself. -/
def ConsensusMsg.isBallot : ConsensusMsg → Bool
  | .proposal _ => true
  | .vote _ => true
  | .newView _ => false

/-- The node is a member of the set of its current view. -/
def ConsensusNode.seated (cfg : NodeConfig) (n : ConsensusNode) : Bool :=
  (n.validatorHistory.setAt n.currentView).contains cfg.selfId

/-- The node is a member of the set of view zero. -/
def ConsensusNode.foundedWith (cfg : NodeConfig) (n : ConsensusNode) : Bool :=
  (n.validatorHistory.setAt 0).contains cfg.selfId

/-- The manifest that the input restores. -/
def NodeInput.manifest? : NodeInput → Option SnapshotManifest
  | .restore _ true manifest => some manifest
  | _ => none

def TimedInput.nodeInput? : TimedInput → Option NodeInput
  | .node input => some input
  | _ => none

/-! ### What a step does to the role and to what is stashed -/

namespace ConsensusNode

/-- Equal in the role and in the stashed proposal. -/
structure SameRole (n n' : ConsensusNode) : Prop where
  isFull : n'.isFull = n.isFull
  stashedProposal : n'.stashedProposal = n.stashedProposal

theorem SameRole.refl (n : ConsensusNode) : SameRole n n := ⟨rfl, rfl⟩

theorem SameRole.trans {n₁ n₂ n₃ : ConsensusNode} (h : SameRole n₁ n₂) (h' : SameRole n₂ n₃) :
    SameRole n₁ n₃ :=
  ⟨h'.isFull.trans h.isFull, h'.stashedProposal.trans h.stashedProposal⟩

theorem sameRole_applyDispatch (P : Primitives) (n : ConsensusNode) (validated : Bool)
    (d : Dispatch) : SameRole n (n.applyDispatch P validated d).1 := by
  refine ⟨?_, (applyDispatch_records P n validated d).2⟩
  cases d with
  | receiveBlock requestedHash block sender =>
    cases block with
    | none => rfl
    | some block =>
      simp only [applyDispatch]
      split_ifs <;> rfl
  | receiveBlockRange fromHeight toHeight blocks sender =>
    simp only [applyDispatch]
    split_ifs <;> rfl
  | _ => rfl

theorem sameRole_applyReconfig (n : ConsensusNode) (cmd : ReconfigCommand)
    (newSet : ValidatorSet) : SameRole n (n.applyReconfig cmd newSet).1 := by
  unfold applyReconfig
  split
  · exact .refl n
  · split <;> exact ⟨rfl, rfl⟩

theorem sameRole_applyReconfigs (R : ReconfigPrimitives) (delay : ℕ) (chainId : ChainId)
    (n : ConsensusNode) (block : Block) :
    SameRole n (n.applyReconfigs R delay chainId block).1 := by
  unfold applyReconfigs
  generalize block.commands = commands
  generalize hp : (n, false) = progress
  have hn : SameRole n progress.1 := by
    rw [← hp]
    exact .refl n
  clear hp
  induction commands generalizing progress with
  | nil => exact hn
  | cons bytes commands ih =>
    apply ih
    unfold applyReconfigPayload
    split
    · exact hn
    · exact hn.trans (sameRole_applyReconfig _ _ _)

theorem sameRole_applyCommit {P : Primitives} {R : ReconfigPrimitives} {cfg : NodeConfig}
    {storage storage' : Storage} {n n' : ConsensusNode} {block : Block}
    (h : n.applyCommit P R cfg storage block = some (storage', n')) : SameRole n n' := by
  have hn : SameRole n (n.advanced block.header.height block.header.view) :=
    ⟨n.advanced_isFull _ _, n.advanced_stashedProposal _ _⟩
  obtain ⟨-, rfl⟩ := Prod.mk.inj (applyCommit_eq_some h)
  exact hn.trans (sameRole_applyReconfigs R cfg.minVEffDelay (cfg.chainId P) _ block)

/-- An installation leaves the role, and the history unless it is replaced by the manifest's. -/
theorem role_installHistories (storage : Storage) (n : ConsensusNode) (m : SnapshotManifest) :
    SameRole n (installHistories storage n m).2.1 ∧
      ((installHistories storage n m).2.1.validatorHistory = n.validatorHistory ∨
        ValidatorSetHistory.fromPersisted m.validatorHistory =
          .ok (installHistories storage n m).2.1.validatorHistory) := by
  cases hd : m.decodeHistories with
  | error e =>
    rw [installHistories_of_error hd]
    exact ⟨.refl n, .inl rfl⟩
  | ok histories =>
    obtain ⟨set, key, bls⟩ := histories
    have hset : ValidatorSetHistory.fromPersisted m.validatorHistory = .ok set := by
      obtain ⟨set', hset, hrest⟩ := bind_eq_ok.mp hd
      obtain ⟨key', -, hrest⟩ := bind_eq_ok.mp hrest
      cases hb : m.blsKeyHistory with
      | none =>
        rw [hb] at hrest
        obtain ⟨rfl, -⟩ := Prod.mk.inj (Except.ok.inj hrest)
        exact mapError_eq_ok.mp hset
      | some p =>
        rw [hb] at hrest
        obtain ⟨bls', -, hrest⟩ := bind_eq_ok.mp hrest
        obtain ⟨rfl, -⟩ := Prod.mk.inj (Except.ok.inj hrest)
        exact mapError_eq_ok.mp hset
    rw [installHistories_of_ok hd]
    split_ifs
    · exact ⟨⟨rfl, rfl⟩, .inr hset⟩
    · exact ⟨⟨rfl, rfl⟩, .inl rfl⟩

theorem role_restore (P : Primitives) (storage : Storage) (n : ConsensusNode)
    (m : SnapshotManifest) : SameRole n (n.restore P storage m).2.1 ∧
      ((n.restore P storage m).2.1.validatorHistory = n.validatorHistory ∨
        ValidatorSetHistory.fromPersisted m.validatorHistory =
          .ok (n.restore P storage m).2.1.validatorHistory) := by
  have hraised : SameRole n ((n.adopt P m).raiseCommitted m) ∧
      ((n.adopt P m).raiseCommitted m).validatorHistory = n.validatorHistory := by
    rw [raiseCommitted_eq_advanced]
    exact ⟨⟨advanced_isFull .., advanced_stashedProposal ..⟩, advanced_validatorHistory ..⟩
  obtain ⟨hrole, hhistory⟩ := role_installHistories (writeSnapshot storage m
    (n.core.adoptSnapshot P m.block m.commitQc m.view).2) ((n.adopt P m).raiseCommitted m) m
  rw [hraised.2] at hhistory
  exact ⟨hraised.1.trans hrole, hhistory⟩

theorem recover_isFull {P : Primitives} {cfg : NodeConfig} {storage : Storage}
    {n : ConsensusNode} (h : recover P cfg storage = some n) :
    n.isFull = !n.foundedWith cfg :=
  (recover_starts h).2.2

end ConsensusNode

/-! ### Steps of the machine -/

/-- The role stays, and a full node with nothing stashed sends nothing and stashes nothing. -/
structure RoleStep (n : ConsensusNode) (m m' : Machine) : Prop where
  isFull : ∀ p ∈ m'.process, p.node.isFull = n.isFull
  muted : n.isFull = true → n.stashedProposal = none →
    m'.sent = m.sent ∧ ∀ p ∈ m'.process, p.node.stashedProposal = none

section
variable {P : Primitives} {V : Verifier} {R : ReconfigPrimitives} {cfg : NodeConfig}
  {m m' : Machine} {n n' : ConsensusNode} {frames frames' : List Frame}

theorem RoleStep.of_same (hp' : m'.process = some ⟨n', frames'⟩) (hr : SameRole n n')
    (hs : m'.sent = m.sent) : RoleStep n m m' where
  isFull := by
    intro p hp
    rw [hp'] at hp
    obtain rfl := Option.some.inj hp
    exact hr.isFull
  muted := by
    intro _ hstash
    refine ⟨hs, fun p hp => ?_⟩
    rw [hp'] at hp
    obtain rfl := Option.some.inj hp
    exact hr.stashedProposal.trans hstash

theorem RoleStep.of_down (hp' : m'.process = none) (hs : m'.sent = m.sent) : RoleStep n m m' where
  isFull := by simp [hp']
  muted := by simp [hp', hs]

theorem RoleStep.of_validator (hn : n.isFull = false) (hp' : m'.process = some ⟨n', frames'⟩)
    (hr : n'.isFull = n.isFull) : RoleStep n m m' where
  isFull := by
    intro p hp
    rw [hp'] at hp
    obtain rfl := Option.some.inj hp
    exact hr
  muted := fun hfull => absurd (hn.symm.trans hfull) Bool.false_ne_true

theorem roleStep_feed (order : IterOrder) {fed : ConsensusNode × Option Event}
    (hr : SameRole n fed.1) : RoleStep n m (m.feed P frames order fed) := by
  unfold Machine.feed
  cases fed.2 with
  | none => exact .of_same rfl hr rfl
  | some event => exact .of_same rfl ⟨hr.isFull, hr.stashedProposal⟩ rfl

theorem roleStep_handleAction (answers : Answers) (action : Action) :
    RoleStep n m (m.handleAction P V R cfg n frames answers action) := by
  cases action with
  | broadcast msg =>
    simp only [Machine.handleAction]
    by_cases hn : n.isFull = true
    · rw [if_pos hn]
      exact .of_same rfl (.refl n) rfl
    · rw [if_neg hn]
      have hvalidator := Bool.eq_false_iff.mpr hn
      cases msg <;> simp only <;> (try split_ifs) <;> exact .of_validator hvalidator rfl rfl
  | commit block =>
    simp only [Machine.handleAction]
    cases hc : n.applyCommit P R cfg m.storage block with
    | none => exact .of_down rfl rfl
    | some r => exact .of_same rfl (sameRole_applyCommit hc) rfl
  | buildProposal view highQc parent =>
    simp only [Machine.handleAction]
    cases (if n.isFull = true then none else answers.built) with
    | none => exact .of_same rfl (.refl n) rfl
    | some block => exact .of_same rfl ⟨rfl, rfl⟩ rfl
  | _ => exact .of_same rfl (.refl n) rfl

theorem roleStep_interpret (answers : Answers) (hp : m.process = some ⟨n, frames⟩) :
    RoleStep n m (m.interpret P V R cfg n frames answers) := by
  cases frames with
  | nil => exact .of_same hp (.refl n) rfl
  | cons frame frames =>
    obtain ⟨buf, rest⟩ := frame
    cases rest with
    | nil => exact .of_same rfl (.refl n) rfl
    | cons action rest =>
      have hother : RoleStep n m
          (if buf.isEmpty then m.handleAction P V R cfg n (⟨[], rest⟩ :: frames) answers action
          else Machine.keep
            { m with storage := m.storage.persistUpdates n.core.state.pendingBlocks buf } n
            (⟨[], action :: rest⟩ :: frames)) := by
        split_ifs
        · exact roleStep_handleAction answers action
        · exact .of_same rfl (.refl n) rfl
      cases action with
      | persist u => exact .of_same rfl (.refl n) rfl
      | _ => exact hother

theorem roleStep_step (hp : m.process = some ⟨n, frames⟩) (input : NodeInput) :
    RoleStep n m (m.step P V R cfg input) := by
  unfold Machine.step
  rw [hp]
  cases input with
  | boot => exact .of_same hp (.refl n) rfl
  | crash => exact .of_down rfl rfl
  | dispatch order validated d => exact roleStep_feed order (sameRole_applyDispatch P n validated d)
  | becomeLeader view =>
    simp only
    split_ifs
    · exact .of_same hp (.refl n) rfl
    · exact .of_same rfl (.refl n) rfl
  | blockSyncRetryTick => exact .of_same rfl ⟨rfl, rfl⟩ rfl
  | blockRangeRequest proposer proposalHeight =>
    refine .of_same rfl ?_ rfl
    unfold maybeEmitBlockRangeRequest
    simp only
    split_ifs <;> exact ⟨rfl, rfl⟩
  | blockRangeRetry due => exact .of_same rfl ⟨rfl, rfl⟩ rfl
  | restore order restored manifest =>
    cases restored with
    | true =>
      have hfeed : RoleStep n m (Machine.feed P
          { m with storage := (n.restore P m.storage manifest).1 } frames order
          (n.restore P m.storage manifest).2) := by
        obtain ⟨hisFull, hmuted⟩ := roleStep_feed order (role_restore P m.storage n manifest).1
        exact ⟨hisFull, hmuted⟩
      exact hfeed
    | false => exact .of_same hp (.refl n) rfl
  | interpret answers => exact roleStep_interpret answers hp
  | releaseStashed =>
    simp only [Machine.releaseStashed]
    cases hs : n.stashedProposal with
    | none => exact .of_same hp (.refl n) rfl
    | some p =>
      refine ⟨?_, fun _ hstash => absurd (hs.symm.trans hstash) (by simp)⟩
      intro p' hp'
      obtain rfl := Option.some.inj hp'
      rfl

/-! ### Runs -/

/-- Boundaries are above view zero. -/
theorem setAt_zero_historyAfter (history : ValidatorSetHistory) (delay : ℕ) (chainId : ChainId)
    (block : Block) :
    (historyAfter R delay chainId history block).setAt 0 = history.setAt 0 := by
  unfold historyAfter
  cases blockChange R delay chainId history block with
  | none => rfl
  | some change =>
    refine ValidatorSetHistory.setAt_extend_iff.mpr fun hlt hle => ?_
    omega

/-- The role of a running node is its membership at view zero, and a full node has nothing
stashed. -/
structure RoleOk (cfg : NodeConfig) (m : Machine) : Prop where
  isFull : ∀ p ∈ m.process, p.node.isFull = !p.node.foundedWith cfg
  stashedProposal : ∀ p ∈ m.process, p.node.isFull = true → p.node.stashedProposal = none

/-- The history that a restore installs has the node at view zero exactly if the node's has. -/
def NodeInput.RestoresAlike (cfg : NodeConfig) (n : ConsensusNode) (input : NodeInput) : Prop :=
  ∀ manifest ∈ input.manifest?,
    ∀ set ∈ (ValidatorSetHistory.fromPersisted manifest.validatorHistory).toOption,
      (set.setAt 0).contains cfg.selfId = n.foundedWith cfg

theorem foundedWith_step {p p' : Process} {input : NodeInput} (hp : m.process = some p)
    (hp' : (m.step P V R cfg input).process = some p')
    (hr : input.RestoresAlike cfg p.node) :
    p'.node.foundedWith cfg = p.node.foundedWith cfg := by
  unfold foundedWith
  cases historyStep_step P V R cfg m input with
  | same q q' hq hq' _ hsame _ =>
    obtain rfl := Option.some.inj (hp.symm.trans hq)
    obtain rfl := Option.some.inj (hp'.symm.trans hq')
    rw [hsame.node]
  | down hdown _ _ => exact absurd (hdown.symm.trans hp') (by simp)
  | recovered q hq _ _ _ => exact absurd (hq.symm.trans hp) (by simp)
  | committed q q' block hq hq' _ hc =>
    obtain rfl := Option.some.inj (hp.symm.trans hq)
    obtain rfl := Option.some.inj (hp'.symm.trans hq')
    rw [hc.node, setAt_zero_historyAfter]
  | restored q order manifest hq hi =>
    obtain rfl := Option.some.inj (hp.symm.trans hq)
    subst hi
    have hhistory : p'.node.validatorHistory =
        (p.node.restore P m.storage manifest).2.1.validatorHistory := by
      unfold Machine.step at hp'
      rw [hp] at hp'
      simp only [if_true, Machine.feed] at hp'
      cases hfed : (p.node.restore P m.storage manifest).2.2 with
      | none =>
        rw [hfed] at hp'
        obtain rfl := Option.some.inj hp'
        rfl
      | some event =>
        rw [hfed] at hp'
        obtain rfl := Option.some.inj hp'
        rfl
    rw [hhistory]
    rcases (role_restore P m.storage p.node manifest).2 with hsame | hset
    · rw [hsame]
    · exact hr manifest rfl _ (by rw [hset]; rfl)

theorem roleOk_step {input : NodeInput} (h : RoleOk cfg m)
    (hr : ∀ p ∈ m.process, input.RestoresAlike cfg p.node) :
    RoleOk cfg (m.step P V R cfg input) := by
  cases hp : m.process with
  | none =>
    have hstarted : ∀ p' ∈ (m.step P V R cfg input).process,
        recover P cfg m.storage = some p'.node := by
      intro p' hp'
      cases historyStep_step P V R cfg m input with
      | same q _ hq _ _ _ _ => exact absurd (hp.symm.trans hq) (by simp)
      | down hdown _ _ => exact absurd (hdown.symm.trans hp') (by simp)
      | recovered q _ hq' hrecover _ =>
        obtain rfl := Option.some.inj (hp'.symm.trans hq')
        exact hrecover
      | committed q _ _ hq _ _ _ => exact absurd (hp.symm.trans hq) (by simp)
      | restored q _ _ hq _ => exact absurd (hp.symm.trans hq) (by simp)
    exact ⟨fun p' hp' => recover_isFull (hstarted p' hp'),
      fun p' hp' _ => (recovered_of_recover (hstarted p' hp')).stashedProposal⟩
  | some p =>
    have hstep : RoleStep p.node m (m.step P V R cfg input) := roleStep_step hp input
    constructor
    · intro p' hp'
      rw [hstep.isFull p' hp', foundedWith_step hp hp' (hr p hp)]
      exact h.isFull p hp
    · intro p' hp' hfull
      rw [hstep.isFull p' hp'] at hfull
      exact (hstep.muted hfull (h.stashedProposal p hp hfull)).2 p' hp'

end

/-- The action is the next one to be interpreted. -/
def Process.Next (p : Process) (action : Action) : Prop :=
  ∃ rest frames, p.frames = ⟨[], action :: rest⟩ :: frames

namespace TimedMachine
variable (P : Primitives) (V : Verifier) (R : ReconfigPrimitives) (cfg : NodeConfig)

/-- The role is that of a validator, and no way out is closed: votes leave unless they are for a
block that diverges or is refused, proposals leave or wait for the block interval, blocks are
asked for and built, and timeouts are signed. -/
structure TakesPart (t : TimedMachine) (p : Process) : Prop where
  validator : p.node.isFull = false
  votes : ∀ (answers : Answers) (vote : Vote), p.Next (.broadcast (.vote vote)) →
    p.node.diverges answers vote = false → p.node.rejects answers vote = false →
      (t.step P V R cfg (.node (.interpret answers))).machine.sent = t.machine.sent ++ [.vote vote]
  proposals : ∀ (answers : Answers) (proposal : Proposal),
    p.Next (.broadcast (.proposal proposal)) →
      if answers.tooSoon then
        ∃ p' ∈ (t.step P V R cfg (.node (.interpret answers))).machine.process,
          p'.node.stashedProposal = some (p.node.stampProposal V cfg P proposal)
      else (t.step P V R cfg (.node (.interpret answers))).machine.sent =
        t.machine.sent ++ [.proposal (p.node.stampProposal V cfg P proposal)]
  builds : ∀ (answers : Answers) (view : ℕ) (highQc : QuorumCertificate) (parent block : Block),
    p.Next (.buildProposal view highQc parent) → answers.built = some block →
      (t.step P V R cfg (.node (.interpret answers))).machine.emitted =
        t.machine.emitted ++ (p.node.core.proposalBuilt view block highQc).2
  leads : ∀ view, (t.step P V R cfg (.node (.becomeLeader view))).machine.emitted =
    t.machine.emitted ++ p.node.core.becomeLeader view
  timesOut : ∀ view,
    .sendTimeout view ∈ (p.node.pacemaker.step p.node.leads (.onTimeout view)).2 →
      (t.step P V R cfg (.timer view)).signing =
        some (p.node.timeoutPayload t.lastTimeoutVote view)

/-- The step adds no vote, no proposal and no timeout vote to what has left the node. -/
structure KeepsOut (t t' : TimedMachine) : Prop where
  sent : t'.machine.sent.filter ConsensusMsg.isBallot =
    t.machine.sent.filter ConsensusMsg.isBallot
  signedTimeouts : t'.signedTimeouts = t.signedTimeouts

/-- A node that is seated in its current view takes part, and one that is not keeps out. -/
structure RoleFollowsSet (t : TimedMachine) (input : TimedInput) : Prop where
  seated : ∀ p ∈ t.machine.process, p.node.seated cfg = true → TakesPart P V R cfg t p
  unseated : ∀ p ∈ t.machine.process, p.node.seated cfg = false →
    KeepsOut t (t.step P V R cfg input)

/-- The node is a member of the set of its current view exactly if it is one at view zero, and a
restore does not change the latter. -/
def SeatUnchanged (t : TimedMachine) (input : TimedInput) : Prop :=
  ∀ p ∈ t.machine.process, p.node.seated cfg = p.node.foundedWith cfg ∧
    ∀ nodeInput ∈ input.nodeInput?, nodeInput.RestoresAlike cfg p.node

instance (cfg : NodeConfig) (n : ConsensusNode) : DecidablePred (NodeInput.RestoresAlike cfg n) :=
  fun input => inferInstanceAs (Decidable (∀ manifest ∈ input.manifest?, _))

instance (t : TimedMachine) : DecidablePred (t.SeatUnchanged cfg) := fun input =>
  inferInstanceAs (Decidable (∀ p ∈ t.machine.process, p.node.seated cfg = p.node.foundedWith cfg ∧
    ∀ nodeInput ∈ input.nodeInput?, nodeInput.RestoresAlike cfg p.node))

variable {P V R cfg} {t : TimedMachine}

theorem takesPart_of_validator {p : Process} (hp : t.machine.process = some p)
    (hn : p.node.isFull = false) : TakesPart P V R cfg t p := by
  obtain ⟨n, frames⟩ := p
  simp only at hn
  constructor
  · exact hn
  · rintro answers vote ⟨rest, frames', rfl⟩ hdiverges hrejects
    simp [step, onMachine, Machine.step, hp, Machine.interpret, Machine.handleAction, hn,
      hdiverges, hrejects]
  · rintro answers proposal ⟨rest, frames', rfl⟩
    cases hsoon : answers.tooSoon <;>
      simp [step, onMachine, Machine.step, hp, Machine.interpret, Machine.handleAction, hn,
        hsoon, Machine.keep]
  · rintro answers view highQc parent block ⟨rest, frames', rfl⟩ hbuilt
    simp [step, onMachine, Machine.step, hp, Machine.interpret, Machine.handleAction, hn, hbuilt,
      Machine.push]
  · intro view
    simp [step, onMachine, Machine.step, hp, hn, Machine.push]
  · intro view htimeout
    have hout : n.timesOut view = true := by simp [ConsensusNode.timesOut, htimeout, hn]
    simp [step, hp, hout]

/-- The invariant: the role as above, and only a validator has a timeout vote to sign. -/
structure RoleKept (cfg : NodeConfig) (t : TimedMachine) : Prop where
  machine : RoleOk cfg t.machine
  signing : ∀ vote ∈ t.signing, ∃ p ∈ t.machine.process, p.node.isFull = false

theorem roleKept_start : RoleKept cfg .start where
  machine := ⟨fun _ hp => absurd hp (by simp [start, Machine.start]),
    fun _ hp => absurd hp (by simp [start, Machine.start])⟩
  signing := fun _ hvote => absurd hvote (by simp [start])

theorem RoleKept.signing_none (h : RoleKept cfg t) (hp : t.machine.process = none) :
    t.signing = none := by
  rw [Option.eq_none_iff_forall_not_mem]
  intro vote hvote
  obtain ⟨p, hp', -⟩ := h.signing vote hvote
  exact absurd (hp.symm.trans hp') (by simp)

theorem roleKept_node (h : RoleKept cfg t) {input : NodeInput}
    (hr : ∀ p ∈ t.machine.process, input.RestoresAlike cfg p.node) :
    RoleKept cfg (t.onMachine (t.machine.step P V R cfg input)) where
  machine := roleOk_step h.machine hr
  signing := by
    intro vote hvote
    unfold onMachine at hvote
    simp only at hvote
    split_ifs at hvote with hrunning
    · obtain ⟨p, hp, hn⟩ := h.signing vote hvote
      obtain ⟨p', hp'⟩ := Option.isSome_iff_exists.mp hrunning
      have hstep : RoleStep p.node t.machine (t.machine.step P V R cfg input) :=
        roleStep_step hp input
      exact ⟨p', hp', (hstep.isFull p' hp').trans hn⟩
    · cases hvote

theorem roleOk_restart {m : Machine} (h : RoleOk cfg m) (order : IterOrder) :
    RoleOk cfg (restart P V R cfg m order) := by
  have hboot : RoleOk cfg (m.step P V R cfg .boot) :=
    roleOk_step h fun _ _ _ hm => absurd hm (by simp [NodeInput.manifest?])
  unfold restart
  split
  · exact hboot
  · exact roleOk_step hboot fun _ _ _ hm => absurd hm (by simp [NodeInput.manifest?])

theorem roleKept_step (h : RoleKept cfg t) {input : TimedInput} (hs : t.SeatUnchanged cfg input) :
    RoleKept cfg (t.step P V R cfg input) := by
  cases input with
  | restart order =>
    simp only [step]
    split_ifs with hrunning
    · exact h
    · refine ⟨roleOk_restart h.machine order, ?_⟩
      intro vote hvote
      have hnone := h.signing_none (Option.not_isSome_iff_eq_none.mp hrunning)
      simp [onMachine, hnone] at hvote
  | node input =>
    cases input with
    | boot => exact h
    | _ => exact roleKept_node h fun p hp => (hs p hp).2 _ rfl
  | timer view =>
    simp only [step]
    cases hp : t.machine.process with
    | none => exact h
    | some p =>
      have hmachine : RoleOk cfg (t.machine.keep { p.node with
          pacemaker := (p.node.pacemaker.step p.node.leads (.onTimeout view)).1 } p.frames) := by
        refine ⟨fun p' hp' => ?_, fun p' hp' => ?_⟩ <;> obtain rfl := Option.some.inj hp'
        · exact h.machine.isFull p hp
        · exact h.machine.stashedProposal p hp
      simp only
      split_ifs with hout
      · refine ⟨hmachine, fun _ _ => ⟨_, rfl, ?_⟩⟩
        simp only [ConsensusNode.timesOut, Bool.and_eq_true, Bool.not_eq_true'] at hout
        exact hout.2
      · refine ⟨hmachine, fun vote hvote => ?_⟩
        obtain ⟨p', hp', hn⟩ := h.signing vote hvote
        obtain rfl := Option.some.inj (hp.symm.trans hp')
        exact ⟨_, rfl, hn⟩
  | sign =>
    simp only [step]
    cases t.signing with
    | none => exact h
    | some payload => exact ⟨h.machine, fun _ hvote => absurd hvote (by simp)⟩

/-- A full node keeps out. -/
theorem keepsOut_of_full (h : RoleKept cfg t) {p : Process} (hp : t.machine.process = some p)
    (hn : p.node.isFull = true) (input : TimedInput) : KeepsOut t (t.step P V R cfg input) := by
  have hnode : ∀ input, (t.machine.step P V R cfg input).sent = t.machine.sent := by
    intro input
    have hstep : RoleStep p.node t.machine (t.machine.step P V R cfg input) :=
      roleStep_step hp input
    exact (hstep.muted hn (h.machine.stashedProposal p hp hn)).1
  cases input with
  | restart order =>
    simp only [step, hp, Option.isSome_some, if_true]
    exact ⟨rfl, rfl⟩
  | node input =>
    cases input with
    | boot => exact ⟨rfl, rfl⟩
    | _ => exact ⟨congrArg _ (hnode _), rfl⟩
  | timer view =>
    simp only [step, hp]
    split_ifs <;> exact ⟨rfl, rfl⟩
  | sign =>
    have hnone : t.signing = none := by
      rw [Option.eq_none_iff_forall_not_mem]
      intro vote hvote
      obtain ⟨p', hp', hvalidator⟩ := h.signing vote hvote
      obtain rfl := Option.some.inj (hp.symm.trans hp')
      exact absurd (hn.symm.trans hvalidator) (by simp)
    simp only [step, hnone]
    exact ⟨rfl, rfl⟩

theorem roleFollowsSet_of_kept (h : RoleKept cfg t) {input : TimedInput}
    (hs : t.SeatUnchanged cfg input) : RoleFollowsSet P V R cfg t input := by
  constructor
  · intro p hp hseated
    refine takesPart_of_validator hp ?_
    rw [h.machine.isFull p hp, ← (hs p hp).1, hseated]
    rfl
  · intro p hp hunseated
    refine keepsOut_of_full h hp ?_ input
    rw [h.machine.isFull p hp, ← (hs p hp).1, hunseated]
    rfl

end TimedMachine

/-- In runs whose views all seat the node exactly if the set of view zero does, the node takes
part in the views that seat it and keeps out of the others. -/
theorem role_follows_set (P : Primitives) (V : Verifier) (R : ReconfigPrimitives)
    (cfg : NodeConfig) (inputs : List TimedInput)
    (h : Along (TimedMachine.step P V R cfg) (TimedMachine.SeatUnchanged cfg) .start inputs) :
    Along (TimedMachine.step P V R cfg) (TimedMachine.RoleFollowsSet P V R cfg) .start inputs :=
  h.imp_of_invariant
    (fun _ _ hs ht => ⟨TimedMachine.roleKept_step ht hs, TimedMachine.roleFollowsSet_of_kept ht hs⟩)
    TimedMachine.roleKept_start

namespace Sample

/-- Four blocks of the views 10 to 13, all interpreted, and the timer of view 14. -/
def upTo14 (a b c d : Block) : List TimedInput :=
  [.restart order] ++ [proposed a (genesisQc timed root validators), proposed b (certificate a),
    proposed c (certificate b), proposed d (certificate c)].map .node ++ interpreted 20 ++
    [toldView (.onTimeoutCert 13)] ++ interpreted 4 ++ [.timer 14]

/-- Another validator is reweighed from view 14 on, where the node times out. -/
def reweighed : List TimedInput :=
  upTo14 changing afterChange afterChange₂ (deciding 13) ++ [.sign]

theorem reweighed_role :
    (run (TimedMachine.step timed verifier weightChanges config) .start
      reweighed).signedTimeouts.map TimeoutVote.view = [14] ∧
    Along (TimedMachine.step timed verifier weightChanges config)
      (TimedMachine.RoleFollowsSet timed verifier weightChanges config) .start reweighed :=
  ⟨by decide +kernel, role_follows_set timed verifier weightChanges config reweighed
    (by decide +kernel)⟩

/-- One validator joins and one leaves. -/
def exchanges : ReconfigPrimitives where
  decodeBody := fun body =>
    match body with
    | [joining, leaving, vEff] =>
      some ⟨[⟨joining.toNat, [], some ⟨15, 0⟩, 1, none, none, []⟩], [leaving.toNat], [],
        vEff.toNat⟩
    | _ => none
  popVerifies := fun _ _ => true
  consentVerifies := fun _ _ _ => true

/-- Validator 5 replaces validator 1 from view 14 on. -/
def exchanging : Block := blockOn root 10 0 [reconfigTag ++ [5, 1, 14]]
def exchanging₂ : Block := blockOn exchanging 11 0 []
def exchanging₃ : Block := blockOn exchanging₂ 12 0 []
def exchanging₄ : Block := blockOn exchanging₃ 13 0 []

def exchange : List TimedInput := upTo14 exchanging exchanging₂ exchanging₃ exchanging₄

def nodeOf (id : NodeId) : NodeConfig := { config with selfId := id }

def stepOf (id : NodeId) : TimedMachine → TimedInput → TimedMachine :=
  TimedMachine.step timed verifier exchanges (nodeOf id)

/-- In view 14 validator 5 is still a full node, and validator 1, which has left, signs a timeout
vote. -/
theorem exchange_roles :
    ¬ Along (stepOf 5) (TimedMachine.RoleFollowsSet timed verifier exchanges (nodeOf 5)) .start
      (exchange ++ [.sign]) ∧
    ¬ Along (stepOf 1) (TimedMachine.RoleFollowsSet timed verifier exchanges (nodeOf 1)) .start
      (exchange ++ [.sign]) := by
  have hfull : ∃ p ∈ (run (stepOf 5) .start exchange).machine.process,
      p.node.seated (nodeOf 5) = true ∧ p.node.isFull = true := by decide +kernel
  have hleft : ∃ p ∈ (run (stepOf 1) .start exchange).machine.process,
      p.node.seated (nodeOf 1) = false := by decide +kernel
  have hsigned : (stepOf 1 (run (stepOf 1) .start exchange) .sign).signedTimeouts ≠
      (run (stepOf 1) .start exchange).signedTimeouts := by decide +kernel
  constructor
  · intro h
    obtain ⟨p, hp, hseated, hrole⟩ := hfull
    exact absurd (hrole.symm.trans (h.append.2.1.seated p hp hseated).validator) (by simp)
  · intro h
    obtain ⟨p, hp, hunseated⟩ := hleft
    exact hsigned (h.append.2.1.unseated p hp hunseated).signedTimeouts

end Sample

end Boule
