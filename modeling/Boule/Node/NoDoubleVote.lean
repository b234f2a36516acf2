import Boule.Lib.Promises
import Boule.Node.Effects

/-! The votes of a node across crashes. A vote is a promise under its view: `VotedInView` marks
it, the stored last voted view is what a restart knows of it. -/
namespace Boule
open Promises

def Action.entry? : Action → Option (Entry BlockHash)
  | .persist (.votedInView view) => some (.mark view)
  | .broadcast (.vote vote) => some (.send vote.view vote.blockHash)
  | _ => none

def ConsensusMsg.vote? : ConsensusMsg → Option Vote
  | .vote v => some v
  | _ => none

def Frame.task (f : Frame) : Promises.Task BlockHash :=
  ⟨f.persistBuf.filterMap StateUpdate.votedView?, f.rest.filterMap Action.entry?⟩

/-- The views of the `VotedInView` updates that the frames have yet to write. -/
def unwrittenViews (frames : List Frame) : List ℕ := unwritten (frames.map Frame.task)

namespace Machine

/-- The votes that have left the node. -/
def sentVotes (m : Machine) : List Vote := m.sent.filterMap ConsensusMsg.vote?

def journal (m : Machine) : Journal BlockHash where
  durable := m.storage.durableVotedView
  sent := m.sentVotes.map fun v => (v.view, v.blockHash)
  live := m.process.map fun p => ⟨p.node.core.state.lastVotedView, p.frames.map Frame.task⟩

end Machine

namespace HotStuffCore

/-- The step votes for a proposal. -/
def votesOn (P : Primitives) (order : IterOrder) (c : HotStuffCore) (event : Event) : Bool :=
  (c.stepCalls P order event).any fun call => call.1.votesFor P call.2

end HotStuffCore

/-! ### The promises of one step -/

def AcceptCall.promises (P : Primitives) (call : AcceptCall) : List (Entry BlockHash) :=
  if call.1.votesFor P call.2 then
    [.mark call.2.block.header.view, .send call.2.block.header.view (call.2.block.hash P)]
  else []

theorem filterMap_entry_filter (actions : List Action) :
    (actions.filter Action.isSafety).filterMap Action.entry? = actions.filterMap Action.entry? := by
  rw [List.filterMap_filter]
  refine List.filterMap_congr fun a _ => ?_
  cases a with
  | broadcast msg => cases msg <;> rfl
  | persist u => cases u <;> rfl
  | _ => rfl

theorem filterMap_entry_lockActions (P : Primitives) (s : HotStuffState) (p : Proposal) :
    (s.lockActions P p).filterMap Action.entry? = [] := by
  refine List.filterMap_eq_nil_iff.mpr fun a ha => ?_
  obtain ⟨l, rfl⟩ := HotStuffState.mem_lockActions P s p ha
  rfl

theorem filterMap_entry_safetyActions (P : Primitives) (call : AcceptCall) :
    (call.safetyActions P).filterMap Action.entry? = call.promises P := by
  rw [AcceptCall.safetyActions, HotStuffState.acceptProposal_safety, AcceptCall.promises]
  simp only [List.filterMap_append, filterMap_entry_lockActions, List.append_nil]
  cases call.1.votesFor P call.2 <;> cases call.1.commits P call.2 <;> rfl

theorem filterMap_entry_step (P : Primitives) (order : IterOrder) (c : HotStuffCore)
    (event : Event) : (c.step P order event).2.filterMap Action.entry? =
      (c.stepCalls P order event).flatMap (AcceptCall.promises P) := by
  rw [← filterMap_entry_filter, (c.handles_step P order event).actions, List.filterMap_flatMap]
  simp only [filterMap_entry_safetyActions]

theorem issues_accept (P : Primitives) (call : AcceptCall) :
    Issues call.1.lastVotedView (call.next P).lastVotedView (call.promises P) := by
  unfold AcceptCall.promises AcceptCall.next
  rw [HotStuffState.acceptProposal_lastVotedView]
  cases hv : call.1.votesFor P call.2 with
  | false => exact .nil _
  | true =>
    have hlt := lastVotedView_lt_of_safeToVote hv
    rw [HotStuffState.insertPending_lastVotedView] at hlt
    exact .single hlt _

/-- A step votes in ascending views, all above the last voted view it started from. -/
theorem issues_step (P : Primitives) (order : IterOrder) (c : HotStuffCore) (event : Event) :
    Issues c.state.lastVotedView (c.step P order event).1.state.lastVotedView
      ((c.step P order event).2.filterMap Action.entry?) := by
  rw [filterMap_entry_step]
  refine Linked.invariant (AcceptCall.promises P)
    (fun log s => Issues c.state.lastVotedView s.lastVotedView log) ?_ ?_
    (c.handles_step P order event).linked (.nil _)
  · intro log s s' hs h
    rw [hs.lastVotedView]
    exact h
  · intro log call _ _ h
    exact h.append (issues_accept P call)

theorem votesOn_of_sends {P : Primitives} {order : IterOrder} {c : HotStuffCore} {event : Event}
    (h : sends ((c.step P order event).2.filterMap Action.entry?) ≠ []) :
    c.votesOn P order event = true := by
  rw [filterMap_entry_step] at h
  by_contra hv
  apply h
  have hnone : (c.stepCalls P order event).flatMap (AcceptCall.promises P) = [] := by
    refine List.flatMap_eq_nil_iff.mpr fun call hc => ?_
    refine if_neg fun hvote => hv ?_
    exact List.any_eq_true.mpr ⟨call, hc, hvote⟩
  rw [hnone]
  rfl

theorem filterMap_entry_of_quiet {actions : List Action}
    (h : actions.filter Action.isSafety = []) : actions.filterMap Action.entry? = [] := by
  rw [← filterMap_entry_filter, h]
  rfl

/-! ### The stored view -/

theorem Storage.lastVotedView_putReferenced (pending : Table BlockHash Block) (s : Storage)
    (updates : List StateUpdate) :
    (updates.foldl (putReferenced pending) s).lastVotedView = s.lastVotedView := by
  induction updates generalizing s with
  | nil => rfl
  | cons u us ih =>
    rw [List.foldl_cons, ih]
    rcases putReferenced_eq pending s u with he | ⟨h, b, -, he⟩ <;> rw [he]
    rfl

/-- A batch leaves the last of its marks. -/
theorem Storage.durableVotedView_persistUpdates (s : Storage) (pending : Table BlockHash Block)
    (updates : List StateUpdate) : (s.persistUpdates pending updates).durableVotedView =
      (updates.filterMap StateUpdate.votedView?).getLastD s.durableVotedView := by
  unfold durableVotedView persistUpdates
  rw [lastVotedView_putReferenced]
  induction updates generalizing s with
  | nil => rfl
  | cons u us ih =>
    rw [List.foldl_cons, ih]
    cases u <;> first | rfl | exact List.getLastD_cons.symm

/-! ### Every input is a move of the journal -/

/-- The event, if any, does not make the core vote while a `VotedInView` is unwritten. -/
def VotesSettled (P : Primitives) (order : IterOrder) (frames : List Frame)
    (fed : ConsensusNode × Option Event) : Prop :=
  ∀ event ∈ fed.2, fed.1.core.votesOn P order event = true → unwrittenViews frames = []

/-- The stored voted view is never lowered: no event makes the core vote while an earlier
`VotedInView` is unwritten, and a snapshot's view lies between the stored one and those still
to be written. -/
def KeepsMarker (P : Primitives) (m : Machine) (input : NodeInput) : Prop :=
  ∀ p ∈ m.process,
    match input with
    | .dispatch order validated d =>
      VotesSettled P order p.frames (p.node.applyDispatch P validated d)
    | .restore order restored manifest => restored = true →
      m.storage.durableVotedView ≤ manifest.view ∧
        (∀ view ∈ unwrittenViews p.frames, manifest.view ≤ view) ∧
        VotesSettled P order p.frames (p.node.restore P m.storage manifest).2
    | _ => True

section
variable {P : Primitives} {V : Verifier} {R : ReconfigPrimitives} {cfg : NodeConfig}

/-- The moves of a machine. -/
abbrev Moves (m m' : Machine) : Prop := Relation.ReflTransGen Move m.journal m'.journal

theorem Moves.of_eq {m m' : Machine} (h : m'.journal = m.journal) : Moves m m' := by
  unfold Moves
  rw [h]

theorem journal_of_process {m : Machine} {n : ConsensusNode} {frames : List Frame}
    (h : m.process = some ⟨n, frames⟩) : m.journal =
      ⟨m.storage.durableVotedView, m.sentVotes.map fun v => (v.view, v.blockHash),
        some ⟨n.core.state.lastVotedView, frames.map Frame.task⟩⟩ := by
  unfold Machine.journal
  rw [h]
  rfl

/-- The same frames, votes and views. -/
theorem moves_same {m m' : Machine} {n n' : ConsensusNode} {frames : List Frame}
    (hp : m.process = some ⟨n, frames⟩) (hp' : m'.process = some ⟨n', frames⟩)
    (hv : n'.core.state.lastVotedView = n.core.state.lastVotedView)
    (hd : m'.storage.durableVotedView = m.storage.durableVotedView)
    (hs : m'.sentVotes = m.sentVotes) : Moves m m' := by
  refine .of_eq ?_
  rw [journal_of_process hp, journal_of_process hp', hv, hd, hs]

/-- A core that emits promises above its last voted view. -/
theorem moves_push {m : Machine} {n n' : ConsensusNode} {frames : List Frame}
    {actions : List Action} (hp : m.process = some ⟨n, frames⟩)
    (hi : Issues n.core.state.lastVotedView n'.core.state.lastVotedView
      (actions.filterMap Action.entry?))
    (hs : sends (actions.filterMap Action.entry?) ≠ [] → unwrittenViews frames = []) :
    Moves m (m.push n' frames actions) := by
  have hj : (m.push n' frames actions).journal = ⟨m.storage.durableVotedView,
      m.sentVotes.map fun v => (v.view, v.blockHash),
      some ⟨n'.core.state.lastVotedView,
        ⟨[], actions.filterMap Action.entry?⟩ :: frames.map Frame.task⟩⟩ := rfl
  unfold Moves
  rw [journal_of_process hp, hj]
  exact .single (.issue hi hs)

theorem moves_push_quiet {m : Machine} {n n' : ConsensusNode} {frames : List Frame}
    {actions : List Action} (hp : m.process = some ⟨n, frames⟩)
    (hv : n'.core.state.lastVotedView = n.core.state.lastVotedView)
    (hq : actions.filterMap Action.entry? = []) : Moves m (m.push n' frames actions) := by
  apply moves_push hp
  · rw [hq, hv]
    exact .nil _
  · rw [hq]
    exact fun h => absurd rfl h

theorem moves_feed {m : Machine} {n : ConsensusNode} {frames : List Frame} {order : IterOrder}
    {fed : ConsensusNode × Option Event} (hp : m.process = some ⟨n, frames⟩)
    (hv : fed.1.core.state.lastVotedView = n.core.state.lastVotedView)
    (hs : VotesSettled P order frames fed) : Moves m (m.feed P frames order fed) := by
  unfold Machine.feed
  cases he : fed.2 with
  | none => exact moves_same hp rfl hv rfl rfl
  | some event =>
    apply moves_push hp
    · rw [← hv]
      exact issues_step P order fed.1.core event
    · exact fun hsend => hs event he (votesOn_of_sends hsend)

theorem applyDispatch_lastVotedView (P : Primitives) (n : ConsensusNode) (validated : Bool)
    (d : Dispatch) :
    (n.applyDispatch P validated d).1.core.state.lastVotedView = n.core.state.lastVotedView := by
  cases d with
  | receiveBlock requestedHash block sender =>
    cases block with
    | none => rfl
    | some block =>
      simp only [ConsensusNode.applyDispatch]
      split_ifs
      · rfl
      · rfl
      · exact n.insertPendingBlocks_lastVotedView P [block]
  | receiveBlockRange fromHeight toHeight blocks sender =>
    simp only [ConsensusNode.applyDispatch]
    split_ifs
    · rfl
    · exact ConsensusNode.insertPendingBlocks_lastVotedView P _ _
    · exact ConsensusNode.insertPendingBlocks_lastVotedView P _ _
  | _ => rfl

/-- The journal after a restore has adopted the snapshot's view. -/
theorem move_adopt {m : Machine} {n : ConsensusNode} {frames : List Frame}
    {manifest : SnapshotManifest} (hp : m.process = some ⟨n, frames⟩)
    (hd : m.storage.durableVotedView ≤ manifest.view)
    (hu : ∀ view ∈ unwrittenViews frames, manifest.view ≤ view) :
    Moves m { m with
      storage := (n.restore P m.storage manifest).1
      process := some ⟨(n.restore P m.storage manifest).2.1, frames⟩ } := by
  have hr := n.restoreFrame_restore P m.storage manifest
  have hlast : (n.restore P m.storage manifest).2.1.core.state.lastVotedView =
      max n.core.state.lastVotedView manifest.view := by
    rw [hr.core.lastVotedView]
    show (if (n.core.state.insertPending P manifest.block).lastVotedView < manifest.view then
      manifest.view else (n.core.state.insertPending P manifest.block).lastVotedView) = _
    rw [HotStuffState.insertPending_lastVotedView]
    split_ifs <;> omega
  have hstored : (n.restore P m.storage manifest).1.durableVotedView = manifest.view := by
    rw [Storage.durableVotedView, hr.lastVotedView]
    rfl
  unfold Moves
  rw [journal_of_process hp, journal_of_process rfl, hlast, hstored]
  exact .single (.adopt hd hu)

theorem moves_restore {m : Machine} {n : ConsensusNode} {frames : List Frame} {order : IterOrder}
    {manifest : SnapshotManifest} (hp : m.process = some ⟨n, frames⟩)
    (hd : m.storage.durableVotedView ≤ manifest.view)
    (hu : ∀ view ∈ unwrittenViews frames, manifest.view ≤ view)
    (hs : VotesSettled P order frames (n.restore P m.storage manifest).2) :
    Moves m (Machine.feed P { m with storage := (n.restore P m.storage manifest).1 } frames order
      (n.restore P m.storage manifest).2) := by
  have hfeed := moves_feed (m := { m with
    storage := (n.restore P m.storage manifest).1
    process := some ⟨(n.restore P m.storage manifest).2.1, frames⟩ }) rfl rfl hs
  refine (move_adopt (P := P) hp hd hu).trans ?_
  unfold Machine.feed at hfeed ⊢
  cases he : (n.restore P m.storage manifest).2.2 with
  | none => rwa [he] at hfeed
  | some event => rwa [he] at hfeed

theorem moves_flush {m : Machine} {n : ConsensusNode} {buf : List StateUpdate}
    {rest : List Action} {frames : List Frame} (hp : m.process = some ⟨n, ⟨buf, rest⟩ :: frames⟩)
    (pending : Table BlockHash Block) :
    Moves m (Machine.keep { m with storage := m.storage.persistUpdates pending buf } n
      (⟨[], rest⟩ :: frames)) := by
  unfold Moves
  rw [journal_of_process hp, journal_of_process rfl]
  show Relation.ReflTransGen Move _ ⟨(m.storage.persistUpdates pending buf).durableVotedView, _, _⟩
  rw [Storage.durableVotedView_persistUpdates]
  exact .single .flush

/-- An action that neither votes nor marks leaves the journal alone. -/
theorem moves_skip {m m' : Machine} {n n' : ConsensusNode} {action : Action}
    {rest : List Action} {frames : List Frame}
    (hp : m.process = some ⟨n, ⟨[], action :: rest⟩ :: frames⟩) (ha : action.entry? = none)
    (hp' : m'.process = some ⟨n', ⟨[], rest⟩ :: frames⟩)
    (hv : n'.core.state.lastVotedView = n.core.state.lastVotedView)
    (hd : m'.storage.durableVotedView = m.storage.durableVotedView)
    (hs : m'.sentVotes = m.sentVotes) : Moves m m' := by
  refine .of_eq ?_
  rw [journal_of_process hp, journal_of_process hp', hv, hd, hs]
  have ht : Frame.task ⟨[], action :: rest⟩ = Frame.task ⟨[], rest⟩ := by
    unfold Frame.task
    simp only [List.filterMap_cons, ha]
  rw [List.map_cons, List.map_cons, ht]

theorem sentVotes_append (m : Machine) (msg : ConsensusMsg) :
    Machine.sentVotes { m with sent := m.sent ++ [msg] } = m.sentVotes ++ msg.vote?.toList := by
  unfold Machine.sentVotes
  rw [List.filterMap_append]
  cases msg <;> rfl

/-- The vote at the head of a frame leaves the node or is suppressed. -/
theorem moves_vote {m m' : Machine} {n : ConsensusNode} {vote : Vote} {rest : List Action}
    {frames : List Frame}
    (hp : m.process = some ⟨n, ⟨[], .broadcast (.vote vote) :: rest⟩ :: frames⟩)
    (hp' : m'.process = some ⟨n, ⟨[], rest⟩ :: frames⟩)
    (hd : m'.storage.durableVotedView = m.storage.durableVotedView)
    (hs : m'.sentVotes = m.sentVotes ∨ m'.sentVotes = m.sentVotes ++ [vote]) : Moves m m' := by
  unfold Moves
  rw [journal_of_process hp, journal_of_process hp', hd]
  rcases hs with hs | hs
  · rw [hs]
    exact .single .drop
  · rw [hs, List.map_append]
    exact .single .deliver

theorem moves_handleAction {m : Machine} {n : ConsensusNode} {action : Action}
    {rest : List Action} {frames : List Frame} (answers : Answers)
    (hp : m.process = some ⟨n, ⟨[], action :: rest⟩ :: frames⟩)
    (ha : ∀ u, action ≠ .persist u) :
    Moves m (m.handleAction P V R cfg n (⟨[], rest⟩ :: frames) answers action) := by
  cases action with
  | broadcast msg =>
    cases msg with
    | proposal p =>
      simp only [Machine.handleAction]
      split_ifs
      · exact moves_skip hp rfl rfl rfl rfl rfl
      · exact moves_skip hp rfl rfl rfl rfl rfl
      · refine moves_skip hp rfl rfl rfl rfl ?_
        exact (sentVotes_append (m.keep n (⟨[], rest⟩ :: frames)) _).trans (List.append_nil _)
    | vote vote =>
      simp only [Machine.handleAction]
      split_ifs
      · exact moves_vote hp rfl rfl (.inl rfl)
      · exact moves_vote hp rfl rfl (.inl rfl)
      · refine moves_vote hp rfl rfl (.inr ?_)
        exact sentVotes_append (m.keep n (⟨[], rest⟩ :: frames)) (.vote vote)
    | newView nv =>
      simp only [Machine.handleAction]
      split_ifs
      · exact moves_skip hp rfl rfl rfl rfl rfl
      · refine moves_skip hp rfl rfl rfl rfl ?_
        exact (sentVotes_append (m.keep n (⟨[], rest⟩ :: frames)) _).trans (List.append_nil _)
  | persist u => exact absurd rfl (ha u)
  | commit block =>
    simp only [Machine.handleAction]
    cases hc : n.applyCommit P R cfg m.storage block with
    | none => exact .single (.crash _)
    | some r =>
      have hf := ConsensusNode.commitFrame_applyCommit hc
      refine moves_skip hp rfl rfl hf.core.lastVotedView ?_ rfl
      show r.1.durableVotedView = _
      rw [Storage.durableVotedView, hf.lastVotedView]
      rfl
  | buildProposal view highQc parent =>
    have hskip : Moves m (m.keep n (⟨[], rest⟩ :: frames)) := moves_skip hp rfl rfl rfl rfl rfl
    simp only [Machine.handleAction]
    cases (if n.isFull = true then none else answers.built) with
    | none => exact hskip
    | some block =>
      refine hskip.trans ?_
      exact moves_push_quiet (m := m.keep n (⟨[], rest⟩ :: frames)) rfl rfl rfl
  | requestBlock hash peer expectedHeight reason => exact moves_skip hp rfl rfl rfl rfl rfl
  | equivocationEvidence voter view a b => exact moves_skip hp rfl rfl rfl rfl rfl
  | proposalEquivocationEvidence leader view a b => exact moves_skip hp rfl rfl rfl rfl rfl

theorem moves_buffer {m : Machine} {n : ConsensusNode} {buf : List StateUpdate}
    {u : StateUpdate} {rest : List Action} {frames : List Frame}
    (hp : m.process = some ⟨n, ⟨buf, .persist u :: rest⟩ :: frames⟩) :
    Moves m (m.keep n (⟨buf ++ [u], rest⟩ :: frames)) := by
  have ht : Frame.task ⟨buf ++ [u], rest⟩ =
      ⟨buf.filterMap StateUpdate.votedView? ++ u.votedView?.toList,
        rest.filterMap Action.entry?⟩ := by
    unfold Frame.task
    rw [List.filterMap_append]
    cases u <;> rfl
  unfold Moves
  rw [journal_of_process hp, journal_of_process rfl, List.map_cons, List.map_cons, ht]
  cases u with
  | votedInView view => exact .single .buffer
  | _ =>
    simp only [StateUpdate.votedView?, Option.toList_none, List.append_nil]
    exact .refl

theorem moves_interpret {m : Machine} {n : ConsensusNode} {frames : List Frame}
    (answers : Answers) (hp : m.process = some ⟨n, frames⟩) :
    Moves m (m.interpret P V R cfg n frames answers) := by
  cases frames with
  | nil => exact .refl
  | cons frame frames =>
    obtain ⟨buf, rest⟩ := frame
    cases rest with
    | nil =>
      refine (moves_flush hp n.core.state.pendingBlocks).trans ?_
      exact .single .finish
    | cons action rest =>
      have hother : (∀ u, action ≠ .persist u) → Moves m
          (if buf.isEmpty then m.handleAction P V R cfg n (⟨[], rest⟩ :: frames) answers action
          else Machine.keep
            { m with storage := m.storage.persistUpdates n.core.state.pendingBlocks buf } n
            (⟨[], action :: rest⟩ :: frames)) := by
        intro ha
        split_ifs with hb
        · rw [List.isEmpty_iff.mp hb] at hp
          exact moves_handleAction answers hp ha
        · exact moves_flush hp n.core.state.pendingBlocks
      cases action with
      | persist u => exact moves_buffer hp
      | _ => exact hother fun u => Action.noConfusion

theorem moves_boot {m : Machine} (hp : m.process = none) : Moves m (m.boot P cfg) := by
  have hdown : Moves m { m with process := none } := by
    cases m
    cases hp
    exact .refl
  unfold Machine.boot
  cases hr : ConsensusNode.recover P cfg m.storage with
  | none => exact hdown
  | some n =>
    simp only
    split_ifs
    · have hlast : n.core.state.lastVotedView = m.storage.durableVotedView := by
        rw [(ConsensusNode.recover_core hr).lastVotedView]
        exact recoverState_lastVotedView cfg.validatorSet (cfg.genesis P)
      have hlive : m.journal.live = none := by
        rw [Machine.journal, hp]
        rfl
      unfold Moves
      rw [journal_of_process (m := { m with process := some ⟨n, []⟩ }) rfl, hlast]
      exact .single (.recover hlive)
    · exact hdown

/-- Every input that keeps the marker moves the journal. -/
theorem moves_step {m : Machine} {input : NodeInput} (h : KeepsMarker P m input) :
    Moves m (m.step P V R cfg input) := by
  unfold Machine.step
  cases hp : m.process with
  | none =>
    cases input with
    | boot => exact moves_boot hp
    | crash => exact .single (.crash _)
    | _ => exact .refl
  | some p =>
    obtain ⟨n, frames⟩ := p
    have hk := h ⟨n, frames⟩ hp
    cases input with
    | boot => exact .refl
    | crash => exact .single (.crash _)
    | dispatch order validated d =>
      exact moves_feed hp (applyDispatch_lastVotedView P n validated d) hk
    | becomeLeader view =>
      simp only
      split_ifs
      · exact .refl
      · exact moves_push_quiet hp rfl
          (filterMap_entry_of_quiet (n.core.filter_buildProposalAtView view))
    | blockSyncRetryTick =>
      obtain ⟨hc, hq⟩ := n.core.quiet_stepBlockSyncRetryTick
      refine moves_push_quiet hp ?_ (filterMap_entry_of_quiet hq)
      show n.core.stepBlockSyncRetryTick.1.state.lastVotedView = _
      rw [hc.state]
    | blockRangeRequest proposer proposalHeight =>
      refine moves_same hp rfl ?_ rfl rfl
      rw [ConsensusNode.core_maybeEmitBlockRangeRequest]
    | blockRangeRetry due => exact moves_same hp rfl rfl rfl rfl
    | restore order restored manifest =>
      simp only
      split_ifs with hr
      · obtain ⟨hd, hu, hs⟩ := hk hr
        exact moves_restore hp hd hu hs
      · exact .refl
    | interpret answers => exact moves_interpret answers hp
    | releaseStashed =>
      simp only [Machine.releaseStashed]
      cases n.stashedProposal with
      | none => exact .refl
      | some p =>
        refine moves_same hp rfl rfl rfl ?_
        exact (sentVotes_append (m.keep { n with stashedProposal := none } frames) _).trans
          (List.append_nil _)

end

/-- The journal of every run whose inputs keep the marker is sound. -/
theorem sound_run (P : Primitives) (V : Verifier) (R : ReconfigPrimitives) (cfg : NodeConfig)
    {inputs : List NodeInput}
    (h : Along (Machine.step P V R cfg) (KeepsMarker P) .start inputs) :
    Sound (run (Machine.step P V R cfg) .start inputs).journal := by
  refine h.invariant (I := fun m => Sound m.journal) ?_ ?_
  · intro m input hk hs
    exact hs.moves (moves_step hk)
  · exact ⟨fun p hp => absurd hp List.not_mem_nil, fun p hp => absurd hp List.not_mem_nil,
      fun l hl => absurd hl (by simp [Machine.journal, Machine.start])⟩

/-- No two votes of one view for different blocks leave the node, and the stored last voted
view covers every vote that has left. -/
theorem no_double_vote_of_keepsMarker (P : Primitives) (V : Verifier) (R : ReconfigPrimitives)
    (cfg : NodeConfig) {inputs : List NodeInput}
    (h : Along (Machine.step P V R cfg) (KeepsMarker P) .start inputs) :
    (∀ v ∈ (run (Machine.step P V R cfg) .start inputs).sentVotes,
      ∀ w ∈ (run (Machine.step P V R cfg) .start inputs).sentVotes,
        v.view = w.view → v.blockHash = w.blockHash) ∧
    ∀ v ∈ (run (Machine.step P V R cfg) .start inputs).sentVotes,
      v.view ≤ (run (Machine.step P V R cfg) .start inputs).storage.durableVotedView := by
  have hs := sound_run P V R cfg h
  generalize run (Machine.step P V R cfg) .start inputs = m at hs ⊢
  constructor
  · intro v hv w hw he
    exact congrArg Prod.snd (hs.agree _ (List.mem_map_of_mem hv) _ (List.mem_map_of_mem hw) he)
  · exact fun v hv => hs.durable _ (List.mem_map_of_mem hv)

instance (P : Primitives) (order : IterOrder) (frames : List Frame)
    (fed : ConsensusNode × Option Event) : Decidable (VotesSettled P order frames fed) :=
  inferInstanceAs (Decidable (∀ event ∈ fed.2, _ → _))

instance (P : Primitives) (m : Machine) : DecidablePred (KeepsMarker P m)
  | .dispatch order _ _ => inferInstanceAs (Decidable (∀ p ∈ m.process,
      VotesSettled P order p.frames _))
  | .restore order _ _ => inferInstanceAs (Decidable (∀ p ∈ m.process, _ → _ ∧
      (∀ view ∈ unwrittenViews p.frames, _) ∧ VotesSettled P order p.frames _))
  | .boot | .crash | .becomeLeader _ | .blockSyncRetryTick | .blockRangeRequest _ _
  | .blockRangeRetry _ | .interpret _ | .releaseStashed =>
    inferInstanceAs (Decidable (∀ p ∈ m.process, True))

namespace Sample

/-- A leader that equivocates in view 10. -/
def x₁₀ : Block := blockOn root 10 0 []

/-- The block of view `v` that a snapshot is taken of, and a block on it. -/
def snap (v : ℕ) : Block := blockOn root v 0 []

def onSnap (v w : ℕ) : Block := blockOn (snap v) w 1 []

/-- A vote in view 10, a snapshot of view `v`, a crash, and a block of view `w` on it. -/
def voteAcross (v w : ℕ) : List NodeInput :=
  .boot :: proposed x₁₀ (genesisQc timed root validators) :: rounds 4 ++
    .restore order true (snapshotOf (snap v)) :: rounds 2 ++
    .crash :: .boot :: proposed (onSnap v w) (certificate (snap v)) :: rounds 4

/-- A snapshot above the vote keeps the marker. -/
theorem votes_above_snapshot :
    (run stepNode .start (voteAcross 12 13)).sentVotes =
      [⟨10, x₁₀.hash timed⟩, ⟨13, (onSnap 12 13).hash timed⟩] ∧
    ((∀ v ∈ (run stepNode .start (voteAcross 12 13)).sentVotes,
      ∀ w ∈ (run stepNode .start (voteAcross 12 13)).sentVotes,
        v.view = w.view → v.blockHash = w.blockHash) ∧
    ∀ v ∈ (run stepNode .start (voteAcross 12 13)).sentVotes,
      v.view ≤ (run stepNode .start (voteAcross 12 13)).storage.durableVotedView) := by
  refine ⟨by decide +kernel, ?_⟩
  have hkeeps : Along stepNode (KeepsMarker timed) .start (voteAcross 12 13) := by decide +kernel
  exact no_double_vote_of_keepsMarker timed verifier reconfigs config hkeeps

/-- A snapshot of view 5 after the vote of view 10 lets the node vote in view 10 again, and
leaves the stored view below the first vote until then. -/
theorem double_vote_below_snapshot :
    (∃ v ∈ (run stepNode .start (voteAcross 5 10)).sentVotes,
      ∃ w ∈ (run stepNode .start (voteAcross 5 10)).sentVotes,
        v.view = w.view ∧ v.blockHash ≠ w.blockHash) ∧
    ∃ v ∈ (run stepNode .start ((voteAcross 5 10).take 7)).sentVotes,
      (run stepNode .start ((voteAcross 5 10).take 7)).storage.durableVotedView < v.view := by
  decide +kernel

end Sample

end Boule
