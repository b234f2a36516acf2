import Boule.Node.Registers
import Boule.Node.Boundaries

/-! A node's proposals: at most one for each view, across crashes and nested interpretation. -/
namespace Boule
open HotStuffCore (Emits SameRecords)
open HotStuffState WriteAhead

/-- The view that a message proposes for. -/
def ConsensusMsg.proposalView? : ConsensusMsg → Option ℕ
  | .proposal p => some p.block.header.view
  | _ => none

def Action.proposalView? : Action → Option ℕ
  | .broadcast msg => msg.proposalView?
  | _ => none

/-- A block is built for a view above the node's marker, and no marker of an earlier proposal is
still to be written. -/
def onceGuard : Guard where
  push _ _ _ _ := True
  build frames memory view block :=
    .proposed ∉ unwrittenKinds frames ∧ memory.proposedInView < view ∧ block.header.view = view
  adopt _ _ _ := True

instance (frames : List Frame) (c : HotStuffCore) (calls : List AcceptCall)
    (actions : List Action) : Decidable (onceGuard.push frames c calls actions) :=
  inferInstanceAs (Decidable True)

instance (frames : List Frame) (memory : Records) (view : ℕ) (block : Block) :
    Decidable (onceGuard.build frames memory view block) :=
  inferInstanceAs (Decidable (_ ∧ _ ∧ _))

instance (frames : List Frame) (disk : Records) (manifest : SnapshotManifest) :
    Decidable (onceGuard.adopt frames disk manifest) :=
  inferInstanceAs (Decidable True)

/-- Every block that is built when the input comes is built for a view above the marker. -/
abbrev BuildsAbove (P : Primitives) (m : Machine) (input : NodeInput) : Prop :=
  Guarded onceGuard P m input

/-- A step of the core neither writes the marker nor sends a proposal. -/
theorem entries_proposed_of_emits {P : Primitives} {c c' : HotStuffCore}
    {calls : List AcceptCall} {actions : List Action} (h : Emits P c calls actions c') :
    Register.proposed.entries c.state.locked actions = [] := by
  induction h with
  | idle same quiet => exact Register.proposed.entries_quiet quiet _
  | accept c p => exact Register.entries_proposed _ _ _
  | raise _ => rfl
  | announce _ => rfl
  | append first _ ih ih' =>
    rw [Register.entries_append, ih, first.lockAfter, ih']
    rfl

theorem obeys_once (P : Primitives) : Register.proposed.Obeys P onceGuard where
  push := by
    intro frames c calls actions c' emits _
    exact ⟨Register.rises_proposed emits, fun hne =>
      absurd (entries_proposed_of_emits emits) hne⟩
  build := by
    rintro frames memory view block qc held ⟨hsettled, hlt, rfl⟩
    refine ⟨?_, fun _ => hsettled⟩
    exact (Rises.write (Nat.le_of_lt hlt)).append (.send (Nat.le_refl _))
  adopt := fun _ => .inl fun _ _ => rfl

/-! ### Views that are proposed for -/

namespace Running

/-- The views of the proposals that have left, are stashed, or wait to be sent. -/
def delivered? (s : Running) : List ℕ := s.delivered.filterMap fun e => e.1.proposalView?

def waiting (s : Running) : List ℕ :=
  s.frames.flatMap fun f => f.1.rest.filterMap Action.proposalView?

def proposalViews (s : Running) : List ℕ :=
  s.delivered? ++ (s.stash.toList.map fun p => p.block.header.view) ++ s.waiting

/-- No two proposals are for one view, and none is above the marker. -/
structure Distinct (s : Running) : Prop where
  nodup : s.proposalViews.Nodup
  bounded : ∀ v ∈ s.proposalViews, v ≤ s.memory.proposedInView

end Running

theorem HotStuffCore.Emits.proposals {P : Primitives} {c c' : HotStuffCore}
    {calls : List AcceptCall} {actions : List Action} (h : Emits P c calls actions c') :
    actions.filterMap Action.proposalView? = [] ∧ c'.proposedInView = c.proposedInView := by
  induction h with
  | idle same quiet =>
    refine ⟨List.filterMap_eq_nil_iff.mpr fun a ha => ?_, same.proposedInView⟩
    have hq := quiet a ha
    cases a with
    | broadcast msg => cases hq
    | _ => rfl
  | accept c p =>
    refine ⟨?_, rfl⟩
    rw [acceptProposal_actions]
    unfold voteUpdates
    have hcommit : (((c.state.commits P p).map Action.commit).toList).filterMap
        Action.proposalView? = [] := by
      cases c.state.commits P p <;> rfl
    rw [List.filterMap_append, hcommit, List.append_nil]
    rcases lockActions_cases P c.state p with ⟨hl, -⟩ | ⟨l, -, -, hl, -⟩ <;> rw [hl] <;>
      split_ifs <;> rfl
  | raise _ => exact ⟨rfl, rfl⟩
  | announce _ => exact ⟨rfl, rfl⟩
  | append _ _ ih ih' =>
    rw [List.filterMap_append, ih.1, ih'.1]
    exact ⟨rfl, ih'.2.trans ih.2⟩

theorem filterMap_proposalView_eq_nil {actions : List Action}
    (hq : ∀ a ∈ actions, a.isRecord = false) : actions.filterMap Action.proposalView? = [] := by
  refine List.filterMap_eq_nil_iff.mpr fun a ha => ?_
  have hrecord := hq a ha
  cases a with
  | broadcast msg => cases hrecord
  | _ => rfl

theorem filterMap_proposalView_broadcast (msg : ConsensusMsg) (rest : List Action) :
    (Action.broadcast msg :: rest).filterMap Action.proposalView? =
      msg.proposalView?.toList ++ rest.filterMap Action.proposalView? := by
  rw [List.filterMap_cons]
  cases hmsg : msg.proposalView? <;> simp [Action.proposalView?, hmsg]

/-- What is sent moves from the waiting ones to the delivered ones. -/
theorem perm_delivered {α : Type} (delivered sent held waiting : List α) :
    (delivered ++ sent ++ held ++ waiting).Perm (delivered ++ held ++ (sent ++ waiting)) := by
  have hswap : (sent ++ held).Perm (held ++ sent) := List.perm_append_comm
  have hmid := (hswap.append_left delivered).append_right waiting
  simpa only [List.append_assoc] using hmid

namespace Running.Distinct
variable {P : Primitives} {s s' : Running}

/-- Some proposals may be forgotten, and the marker may rise. -/
theorem of_subperm (h : s.Distinct) (hsub : s'.proposalViews.Subperm s.proposalViews)
    (hle : s.memory.proposedInView ≤ s'.memory.proposedInView) : s'.Distinct := by
  obtain ⟨l, hperm, hsublist⟩ := hsub
  constructor
  · exact hperm.nodup_iff.mp (h.nodup.sublist hsublist)
  · exact fun v hv => Nat.le_trans (h.bounded v (hsublist.subset (hperm.mem_iff.mpr hv))) hle

theorem build (h : s.Distinct) {view : ℕ} (hlt : s.memory.proposedInView < view)
    (hviews : s'.proposalViews.Perm (view :: s.proposalViews))
    (hmarker : s'.memory.proposedInView = view) : s'.Distinct := by
  constructor
  · refine hviews.nodup_iff.mpr (List.nodup_cons.mpr ⟨fun hmem => ?_, h.nodup⟩)
    have hle := h.bounded view hmem
    omega
  · intro v hv
    rcases List.mem_cons.mp (hviews.mem_iff.mp hv) with rfl | hv
    · omega
    · have hle := h.bounded v hv
      omega

theorem move (h : s.Distinct) (hm : Move P onceGuard s s') : s'.Distinct := by
  cases hm with
  | push emits memory guard =>
    obtain ⟨hnone, hmarker⟩ := emits.proposals
    refine h.of_subperm (List.Sublist.subperm ?_) ?_
    · unfold proposalViews waiting
      rw [List.flatMap_cons, hnone]
      exact List.Sublist.refl _
    · rw [← memory]
      exact Nat.le_of_eq hmarker.symm
  | quiet held unrecorded =>
    refine h.of_subperm (List.Sublist.subperm ?_) (Nat.le_refl _)
    unfold proposalViews waiting
    rw [List.flatMap_cons, filterMap_proposalView_eq_nil unrecorded]
    exact List.Sublist.refl _
  | build held guard =>
    obtain ⟨-, hlt, rfl⟩ := guard
    refine h.build hlt ?_ rfl
    unfold proposalViews waiting
    rw [List.flatMap_cons]
    exact List.perm_middle
  | buffer top =>
    refine h.of_subperm (List.Sublist.subperm ?_) (Nat.le_refl _)
    unfold proposalViews waiting
    rw [top]
    exact List.Sublist.refl _
  | flush top =>
    refine h.of_subperm (List.Sublist.subperm ?_) (Nat.le_refl _)
    unfold proposalViews waiting
    rw [top]
    exact List.Sublist.refl _
  | deliver top same =>
    rename_i msg msg' rest held frames
    refine h.of_subperm (List.Perm.subperm ?_) (Nat.le_refl _)
    have hview : msg'.proposalView? = msg.proposalView? := by
      rcases same with rfl | ⟨p, p', rfl, rfl, hv⟩
      · rfl
      · exact congrArg some hv
    unfold proposalViews waiting delivered?
    have hnew : [(msg', held)].filterMap (fun e => e.1.proposalView?) =
        msg.proposalView?.toList := by
      rw [← hview]
      cases hmsg : msg'.proposalView? <;> simp [hmsg]
    rw [top, List.filterMap_append, List.flatMap_cons, List.flatMap_cons, hnew,
      filterMap_proposalView_broadcast, List.append_assoc msg.proposalView?.toList]
    exact perm_delivered _ _ _ _
  | hold top same =>
    rename_i p p' rest held frames
    refine h.of_subperm ?_ (Nat.le_refl _)
    unfold proposalViews waiting delivered?
    rw [top, List.flatMap_cons, List.flatMap_cons]
    have hold : (Action.broadcast (.proposal p) :: rest).filterMap Action.proposalView? =
        p.block.header.view :: rest.filterMap Action.proposalView? := rfl
    rw [hold]
    simp only [Option.toList_some, List.map_cons, List.map_nil, same, List.append_assoc]
    refine (List.subperm_append_left _).mpr (List.Sublist.subperm ?_)
    exact List.sublist_append_right _ _
  | skip top unwritten =>
    refine h.of_subperm (List.Sublist.subperm ?_) (Nat.le_refl _)
    unfold proposalViews waiting
    rw [top, List.flatMap_cons, List.flatMap_cons]
    refine List.Sublist.append_left ?_ _
    refine List.Sublist.append_right ?_ _
    exact (List.sublist_cons_self ..).filterMap _
  | finish top =>
    refine h.of_subperm (List.Sublist.subperm ?_) (Nat.le_refl _)
    unfold proposalViews waiting
    rw [top]
    exact List.Sublist.refl _
  | release held stashed =>
    rename_i p
    refine h.of_subperm (List.Sublist.subperm ?_) (Nat.le_refl _)
    unfold proposalViews waiting delivered?
    rw [stashed, List.filterMap_append]
    simp [ConsensusMsg.proposalView?]
  | adopt guard => exact h.of_subperm (List.Subperm.refl _) (Nat.le_refl _)

end Running.Distinct

/-! ### Runs -/

section
variable {P : Primitives} {V : Verifier} {R : ReconfigPrimitives} {cfg : NodeConfig}

/-- The proposals that have left the node are for views of their own, which the marker on disk
covers. -/
structure Honest (w : Logbook) : Prop where
  matched : w.Matches
  remembers : Register.proposed.Remembers w
  nodup : (w.delivered.filterMap fun e => e.1.proposalView?).Nodup
  distinct : ∀ p ∈ w.machine.process, (w.running p).Distinct

theorem Running.Distinct.moves {s s' : Running} (h : s.Distinct)
    (hm : Moves P onceGuard s s') : s'.Distinct := by
  induction hm with
  | refl => exact h
  | tail _ hlast ih => exact ih.move hlast

theorem Running.marker_le_of_moves {s s' : Running} (hm : Moves P onceGuard s s') :
    s.memory.proposedInView ≤ s'.memory.proposedInView := by
  induction hm with
  | refl => exact Nat.le_refl _
  | tail _ hlast ih =>
    apply Nat.le_trans ih
    cases hlast with
    | push emits memory guard =>
      rw [← memory]
      exact Nat.le_of_eq emits.proposals.2.symm
    | build held guard => exact Nat.le_of_lt guard.2.1
    | _ => exact Nat.le_refl _

/-- After a crash only what has left the node counts. -/
theorem distinct_fresh {records : Records} {delivered : List (ConsensusMsg × Option Locked)}
    (hn : (delivered.filterMap fun e => e.1.proposalView?).Nodup)
    (hd : ∀ e ∈ delivered, ∀ v ∈ Register.proposed.need e.2 e.1, v ≤ records.proposedInView) :
    Running.Distinct ⟨records, delivered, records, none, []⟩ := by
  have hviews : Running.proposalViews ⟨records, delivered, records, none, []⟩ =
      delivered.filterMap fun e => e.1.proposalView? := by
    simp [Running.proposalViews, Running.waiting, Running.delivered?]
  constructor
  · rw [hviews]
    exact hn
  · rw [hviews]
    intro v hv
    obtain ⟨⟨msg, held⟩, he, hmsg⟩ := List.mem_filterMap.mp hv
    cases msg with
    | proposal p => exact hd _ he v hmsg
    | _ => cases hmsg

/-- Neither marker is lower afterwards, on disk or in the memory of a process that goes on. -/
structure Machine.MarkerKept (m m' : Machine) : Prop where
  disk : m.storage.records.proposedInView ≤ m'.storage.records.proposedInView
  memory : ∀ p ∈ m.process, ∀ p' ∈ m'.process,
    p.node.core.proposedInView ≤ p'.node.core.proposedInView

instance (m m' : Machine) : Decidable (m.MarkerKept m') :=
  decidable_of_iff (_ ∧ ∀ p ∈ m.process, ∀ p' ∈ m'.process, _)
    ⟨fun h => ⟨h.1, h.2⟩, fun h => ⟨h.disk, h.memory⟩⟩

theorem Honest.start : Honest .start where
  matched := ⟨rfl, rfl⟩
  remembers := Register.proposed.remembers_start
  nodup := List.nodup_nil
  distinct := fun p hp => absurd hp (by simp [Logbook.start, Machine.start])

theorem Honest.step {w : Logbook} {input : NodeInput} (h : Honest w)
    (hb : BuildsAbove P w.machine input) : Honest (w.step P V R cfg input) := by
  have hstepped : Logbook.Stepped onceGuard P w (w.step P V R cfg input) :=
    Logbook.stepped_step h.matched hb
  have hremembers := h.remembers.turn (obeys_once P) hstepped.turn
  cases hstepped.turn with
  | work p p' hp hp' moves =>
    have hdistinct := (h.distinct p hp).moves moves
    refine ⟨hstepped.matched, hremembers, ?_, fun q hq => ?_⟩
    · have hall := hdistinct.nodup
      unfold Running.proposalViews at hall
      rw [List.append_assoc] at hall
      exact (List.nodup_append.mp hall).1
    · obtain rfl := Option.some.inj (hp'.symm.trans hq)
      exact hdistinct
  | down stopped disk delivered =>
    refine ⟨hstepped.matched, hremembers, ?_, fun q hq => ?_⟩
    · rw [delivered]
      exact h.nodup
    · rw [stopped] at hq
      cases hq
  | up p stopped running fresh =>
    have hd : (w.step P V R cfg input).delivered = w.delivered :=
      congrArg Running.delivered fresh
    refine ⟨hstepped.matched, hremembers, ?_, fun q hq => ?_⟩
    · rw [hd]
      exact h.nodup
    · obtain rfl := Option.some.inj (running.symm.trans hq)
      rw [fresh]
      exact distinct_fresh h.nodup h.remembers.durable

theorem Honest.markerKept {w : Logbook} {input : NodeInput} (h : Honest w)
    (hb : BuildsAbove P w.machine input) :
    w.machine.MarkerKept (w.machine.step P V R cfg input) := by
  have hstepped : Logbook.Stepped onceGuard P w (w.step P V R cfg input) :=
    Logbook.stepped_step h.matched hb
  cases hstepped.turn with
  | work p p' hp hp' moves =>
    have hkept := h.remembers.running p hp
    refine ⟨hkept.disk_le_of_moves (obeys_once P) moves, fun q hq q' hq' => ?_⟩
    obtain rfl := Option.some.inj (hp.symm.trans hq)
    obtain rfl := Option.some.inj (hp'.symm.trans hq')
    exact Running.marker_le_of_moves moves
  | down stopped disk delivered =>
    refine ⟨Nat.le_of_eq (congrArg Records.proposedInView disk).symm, fun q _ q' hq' => ?_⟩
    exact absurd (stopped.symm.trans hq') (by simp)
  | up p stopped running fresh =>
    have hr : (w.step P V R cfg input).machine.storage.records = w.machine.storage.records :=
      congrArg Running.disk fresh
    refine ⟨Nat.le_of_eq (congrArg Records.proposedInView hr).symm, fun q hq => ?_⟩
    exact absurd (stopped.symm.trans hq) (by simp)

variable (P V R cfg) in
theorem machine_logbookStep (w : Logbook) (input : NodeInput) :
    (w.step P V R cfg input).machine = w.machine.step P V R cfg input := rfl

theorem guarded_logbook {inputs : List NodeInput}
    (h : Along (Machine.step P V R cfg) (BuildsAbove P) .start inputs) :
    Along (Logbook.step P V R cfg) (fun w => BuildsAbove P w.machine) .start inputs :=
  (along_image (machine_logbookStep P V R cfg) _ _ _).mpr h

/-- No two proposals that leave the node in such a run are for one view. -/
theorem nodup_sentProposals {inputs : List NodeInput}
    (h : Along (Machine.step P V R cfg) (BuildsAbove P) .start inputs) :
    ((run (Machine.step P V R cfg) .start inputs).sent.filterMap
      ConsensusMsg.proposalView?).Nodup := by
  have hhonest : Honest (run (Logbook.step P V R cfg) .start inputs) :=
    (guarded_logbook h).invariant (fun w input hb hw => hw.step hb) .start
  have hmachine := run_image (machine_logbookStep P V R cfg) .start inputs
  have hsent := hhonest.matched.delivered
  rw [hmachine] at hsent
  have hviews : ((run (Logbook.step P V R cfg) .start inputs).delivered.map
      Prod.fst).filterMap ConsensusMsg.proposalView? = _ := List.filterMap_map
  rw [hsent] at hviews
  rw [show Machine.start = Logbook.start.machine from rfl, hviews]
  exact hhonest.nodup

end

/-- In every run in which blocks are built for views above the marker only, no two proposals
that leave the node are for one view, and the marker falls neither on disk nor in memory. -/
theorem one_proposal_of_buildsAbove (P : Primitives) (V : Verifier) (R : ReconfigPrimitives)
    (cfg : NodeConfig) (inputs : List NodeInput)
    (h : Along (Machine.step P V R cfg) (BuildsAbove P) .start inputs) :
    ((run (Machine.step P V R cfg) .start inputs).sent.filterMap
      ConsensusMsg.proposalView?).Nodup ∧
    Along (Machine.step P V R cfg)
      (fun m input => m.MarkerKept (m.step P V R cfg input)) .start inputs := by
  refine ⟨nodup_sentProposals h, ?_⟩
  apply (along_image (machine_logbookStep P V R cfg) _ Logbook.start _).mp
  exact (guarded_logbook h).imp_of_invariant
    (fun w input hb (hw : Honest w) => ⟨hw.step hb, hw.markerKept hb⟩) .start

namespace Sample

/-- The next round, in which the application builds `b`. -/
def built (b : Block) : NodeInput := .interpret ⟨0, fun _ => true, some b, false⟩

/-- What a broadcast of the node leads to when it is looped back: a proposal, a vote, a new
view. -/
def ownProposal (p : Proposal) : List NodeInput :=
  [.dispatch order true (.safety (.proposalReceived ⟨⟨p, 1, 0⟩, 1⟩)),
    .dispatch order true (.pacemaker (.onProposalReceived p.block.header.view)),
    .dispatch order true (.pacemaker (.onQc p.justify.view))]

def voteOf (id : ValidatorId) (b : Block) : NodeInput :=
  .dispatch order true
    (.safety (.voteReceived ⟨⟨⟨⟨b.header.view, b.hash timed⟩, id, 0⟩, id⟩, id⟩))

def ownNewView (qc : QuorumCertificate) : NodeInput :=
  .dispatch order true (.safety (.newViewReceived ⟨⟨⟨qc⟩, 1, 0⟩, 1⟩))

/-- Two views led, with a crash between. -/
def leadingTwice : List NodeInput :=
  [.boot, advanceByTimeout 3] ++ rounds 1 ++ [built (blockOn root 4 0 [])] ++ rounds 4 ++
    [.crash, .boot, advanceByTimeout 7] ++ rounds 1 ++ [built (blockOn root 8 0 [])] ++ rounds 4

theorem one_proposal_leadingTwice :
    (run stepNode .start leadingTwice).sent.filterMap ConsensusMsg.proposalView? = [4, 8] ∧
    ((run stepNode .start leadingTwice).sent.filterMap ConsensusMsg.proposalView?).Nodup ∧
    Along stepNode (fun m input => m.MarkerKept (stepNode m input)) .start leadingTwice := by
  have h := one_proposal_of_buildsAbove timed verifier reconfigs config leadingTwice
    (by decide +kernel)
  exact ⟨by decide +kernel, h⟩

def block₇ : Block := blockOn root 7 0 []

/-- The certificate that the votes of the other three validators make. -/
def qc₇ : QuorumCertificate :=
  { certify block₇ [1, 2, 3] with blockHash := block₇.hash timed, signatures := 9 }

def proposal₄ : Proposal := ⟨blockOn block₇ 4 0 [], qc₇⟩

/-- A proposal of view 8 for each time at which the block is built. -/
def proposal₈ (timestamp : ℕ) : Proposal := ⟨blockOn block₇ 8 timestamp [], qc₇⟩

/-- In view 3 the node learns a certificate of view 7 before it learns its block. -/
def behind : List NodeInput :=
  [.boot, advanceByTimeout 2] ++ rounds 1 ++ [ownNewView (genesisQc timed root validators)] ++
    rounds 2 ++ [voteOf 2 block₇] ++ rounds 1 ++ [voteOf 3 block₇] ++ rounds 1 ++
    [voteOf 4 block₇] ++ rounds 3 ++ [proposed block₇ (genesisQc timed root validators)] ++
    rounds 3 ++ [voteOf 1 block₇] ++ rounds 2

/-- On its way through view 4 the node hears its own new view, enters view 8, and proposes
there first. -/
def nested : List NodeInput :=
  [advanceByTimeout 3] ++ rounds 1 ++ [ownNewView qc₇] ++ rounds 1 ++ [advanceByQc 7] ++
    rounds 1 ++ [built (proposal₈ 0).block] ++ rounds 5 ++ [.becomeLeader 8] ++ rounds 1 ++
    (ownProposal (proposal₈ 0)).take 1 ++ rounds 3 ++ [voteOf 1 (proposal₈ 0).block] ++ rounds 2 ++
    (ownProposal (proposal₈ 0)).drop 1 ++ [ownNewView qc₇] ++ rounds 1 ++ [advanceByQc 7] ++
    [built proposal₄.block] ++ rounds 3 ++ (ownProposal proposal₄).take 1 ++ rounds 1 ++
    (ownProposal proposal₄).drop 1 ++ rounds 2 ++ [.becomeLeader 4] ++ rounds 1

def block₅ : Block := blockOn root 5 0 []

def block₉ : Block := blockOn block₅ 9 0 []

/-- A missing block arrives, and the node enters view 8 once more. -/
def again : List NodeInput :=
  [proposed block₉ (certificate block₅)] ++ rounds 2 ++
    [.dispatch order true (.receiveBlock (block₅.hash timed) (some block₅) 2)] ++ rounds 3 ++
    [voteOf 1 block₉] ++ rounds 2 ++ [ownNewView qc₇] ++ rounds 1 ++ [advanceByQc 7] ++
    [built (proposal₈ 1).block] ++ rounds 3

/-- The proposal of view 4 takes the marker back, and view 8 is proposed for twice. -/
theorem two_proposals_of_one_view :
    let sent := (run stepNode .start (behind ++ nested ++ again)).sent
    .proposal (proposal₈ 0) ∈ sent ∧ .proposal (proposal₈ 1) ∈ sent ∧
      proposal₈ 0 ≠ proposal₈ 1 ∧ sent.filterMap ConsensusMsg.proposalView? = [8, 4, 8] ∧
      ¬(sent.filterMap ConsensusMsg.proposalView?).Nodup ∧
      ¬Along stepNode (fun m input => m.MarkerKept (stepNode m input)) .start
        (behind ++ nested) := by
  decide +kernel

end Sample

end Boule
