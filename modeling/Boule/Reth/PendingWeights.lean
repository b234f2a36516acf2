import Boule.Lib.Outbox
import Boule.Reth.DerivedWeights
import Boule.Reth.SourcedWeights

/-! Weights that execution derived and the registry does not have yet: how long they stay pending,
and when a block that carries them is taken for forged. -/
namespace Boule
open Outbox

namespace BondedStakeLedger
variable {l : BondedStakeLedger}

/-- The stake is the one that the last pending update reports, or else that of `l₀`. -/
def ReportsSince (l₀ l : BondedStakeLedger) : Prop :=
  ∀ v, l.stakeOf v = (lastUpdate l.pending v).getD (l₀.stakeOf v)

theorem reportsSince_apply {l₀ : BondedStakeLedger} (h : ReportsSince l₀ l) (node : NodeId)
    (op : StakeOp) : ReportsSince l₀ (l.apply node op) := by
  rcases l.apply_cases node op with ⟨-, happly⟩ | ⟨hpending, hstake⟩
  · rw [happly]
    exact h
  · intro v
    rw [hpending, hstake, lastUpdate_append]
    by_cases hv : v = node
    · rw [if_pos hv, if_pos hv.symm, Option.getD_some]
    · rw [if_neg hv, if_neg (Ne.symm hv)]
      exact h v

theorem reportsSince_slash {l₀ : BondedStakeLedger} (h : ReportsSince l₀ l) (node : NodeId) :
    ReportsSince l₀ (l.slash node) := by
  intro v
  have hpending : (l.slash node).pending =
      if 0 < l.stakeOf node then l.pending ++ [⟨node, 0⟩] else l.pending := rfl
  rw [stakeOf_slash, hpending]
  by_cases hactive : 0 < l.stakeOf node
  · rw [if_pos hactive, lastUpdate_append]
    by_cases hv : v = node
    · rw [if_pos hv, if_pos hv.symm, Option.getD_some]
    · rw [if_neg hv, if_neg (Ne.symm hv)]
      exact h v
  · rw [if_neg hactive, ← h v]
    split_ifs with hv
    · rw [hv]
      omega
    · rfl

theorem reportsSince_foldl {α : Type} {l₀ : BondedStakeLedger}
    {f : BondedStakeLedger → α → BondedStakeLedger}
    (hf : ∀ l a, ReportsSince l₀ l → ReportsSince l₀ (f l a)) (h : ReportsSince l₀ l)
    (as : List α) : ReportsSince l₀ (as.foldl f l) := by
  induction as generalizing l with
  | nil => exact h
  | cons a as ih => exact ih (hf l a h)

theorem reportsSince_absorb {l₀ : BondedStakeLedger} (h : ReportsSince l₀ l) (height : ℕ)
    (logs : List Log) : ReportsSince l₀ (l.absorb height logs) := by
  have hstart : ReportsSince l₀ (l.advanceToHeight height) := h
  have hops := reportsSince_foldl
    (fun l (op : NodeId × StakeOp) h => reportsSince_apply (l := l) h op.1 op.2) hstart
    (parseStakeLogs (getLogs stakingAddress [depositTopic, withdrawTopic] logs))
  exact reportsSince_foldl (fun l node h => reportsSince_slash (l := l) h node) hops
    (parseSlashedLogs (getLogs slashingAddress [slashedTopic] logs))

/-- A ledger whose pending updates report its stakes tells every later change of them. -/
theorem Reports.since (h : l.Reports) : ReportsSince l l := by
  intro v
  cases hlast : lastUpdate l.pending v with
  | none => rfl
  | some w => exact (h v w hlast).symm

end BondedStakeLedger

theorem lastOf_updates (updates : List ValidatorUpdate) (v : NodeId) :
    lastOf (updates.map fun u => (u.nodeId, u.weight)) v = lastUpdate updates v := by
  simp [lastOf, lastUpdate, List.filter_map, Function.comp_def]

namespace RethApplication
variable (logsAt : ℕ → List Log)

/-- The updates that the commit of the block returns. -/
def updatesOf (a : RethApplication) (b : RethBlock) (answer : ElAnswer) : List ValidatorUpdate :=
  ((a.commit logsAt b answer).2.map CommitResult.validatorUpdates).getD []

/-- What a block of the chain carries, and what its commit yields. -/
def round (a : RethApplication) (b : RethBlock) (answer : ElAnswer) : Round NodeId ℕ where
  acks := b.weights
  posts := (a.updatesOf logsAt b answer).map fun u => (u.nodeId, u.weight)

/-- What the application makes of the round: it looks at the carried weights of what it executes. -/
def heard (a : RethApplication) (b : RethBlock) (answer : ElAnswer) : Round NodeId ℕ where
  acks := if answer = .valid then b.weights else []
  posts := (a.round logsAt b answer).posts

variable {logsAt}

theorem reconcilePendingWeights_eq (pending : Table NodeId ℕ) (carried : List (NodeId × ℕ))
    (updates : List ValidatorUpdate) : reconcilePendingWeights pending carried updates =
      next pending ⟨carried, updates.map fun u => (u.nodeId, u.weight)⟩ := by
  unfold reconcilePendingWeights next post settle
  rw [List.foldl_map]

/-- The ledger from which the commit of an executed block derives its updates. -/
def absorbed (logsAt : ℕ → List Log) (a : RethApplication) (b : RethBlock)
    (payload : ExecutionPayload) : BondedStakeLedger :=
  (backfillSelfSyncedGap logsAt a.stakeSource payload.blockNumber a.committed.height
    b.height).1.absorb b.height payload.logs

variable (logsAt) in
/-- What a commit does: nothing, or the ledger absorbs the gap and the block. -/
theorem commit_spec (a : RethApplication) (b : RethBlock) (answer : ElAnswer) :
    ((a.commit logsAt b answer).1 = a ∧ a.updatesOf logsAt b answer = [] ∧
        (answer = .valid → b.weights = [])) ∨
      ∃ payload, answer = .valid ∧ b.weights = payload.weights ∧
        a.updatesOf logsAt b answer = (absorbed logsAt a b payload).pending ∧
        (a.commit logsAt b answer).1.stakeSource = (absorbed logsAt a b payload).takeUpdates.1 ∧
        (a.commit logsAt b answer).1.pendingWeights = reconcilePendingWeights a.pendingWeights
          payload.weights (absorbed logsAt a b payload).pending := by
  unfold updatesOf commit RethBlock.weights
  cases b.payload with
  | none => exact .inl ⟨rfl, rfl, fun _ => rfl⟩
  | some payload =>
    cases answer with
    | failed => exact .inl ⟨rfl, rfl, nofun⟩
    | syncing => exact .inl ⟨rfl, rfl, nofun⟩
    | valid => exact .inr ⟨payload, rfl, rfl, rfl, rfl, rfl⟩

theorem pendingWeights_commitBlock (a : RethApplication) (b : RethBlock) (answer : ElAnswer) :
    (a.commitBlock logsAt b answer).pendingWeights =
      next a.pendingWeights (a.heard logsAt b answer) := by
  rw [commitBlock, pendingWeights_slashes]
  unfold heard round
  rcases a.commit_spec logsAt b answer with
    ⟨hsame, hnone, hcarried⟩ | ⟨payload, rfl, hcarried, hupdates, -, hweights⟩
  · rw [hsame, hnone]
    split_ifs with hvalid
    · rw [hcarried hvalid]
      rfl
    · rfl
  · rw [hweights, hupdates, if_pos rfl, hcarried]
    exact reconcilePendingWeights_eq ..

variable (logsAt) in
theorem reportsSince_backfill {l₀ l : BondedStakeLedger}
    (h : BondedStakeLedger.ReportsSince l₀ l) (blockNumber : Option ℕ) (prevHeight height : ℕ) :
    BondedStakeLedger.ReportsSince l₀
      (backfillSelfSyncedGap logsAt l blockNumber prevHeight height).1 := by
  unfold backfillSelfSyncedGap
  split
  · exact h
  · cases blockNumber with
    | none => exact h
    | some number =>
      refine run_invariant (I := fun r : BondedStakeLedger × List ValidatorEffect =>
        BondedStakeLedger.ReportsSince l₀ r.1) ?_ (s := (l, [])) h _
      intro r i hr
      exact BondedStakeLedger.reportsSince_absorb hr i _

/-- The updates of a commit tell every change of a stake, before the slashes. -/
theorem stakeOf_commit {a : RethApplication} (h : a.stakeSource.Reports) (b : RethBlock)
    (answer : ElAnswer) (v : NodeId) : (a.commit logsAt b answer).1.stakeSource.stakeOf v =
      (lastOf (a.round logsAt b answer).posts v).getD (a.stakeSource.stakeOf v) := by
  unfold round
  rw [lastOf_updates]
  rcases a.commit_spec logsAt b answer with
    ⟨hsame, hnone, -⟩ | ⟨payload, -, -, hupdates, hstake, -⟩
  · rw [hsame, hnone]
    rfl
  · have hgap := reportsSince_backfill logsAt h.since payload.blockNumber
      a.committed.height b.height
    rw [hstake, hupdates]
    exact BondedStakeLedger.reportsSince_absorb hgap b.height payload.logs v

theorem stakeOf_commitBlock {a : RethApplication} (h : a.stakeSource.Reports) (b : RethBlock)
    (answer : ElAnswer) (v : NodeId) : (a.commitBlock logsAt b answer).stakeSource.stakeOf v =
      if v ∈ b.offenders then 0
      else (lastOf (a.round logsAt b answer).posts v).getD (a.stakeSource.stakeOf v) := by
  rw [commitBlock, stakeSource_slashes, BondedStakeLedger.stakeOf_foldl_slash, stakeOf_commit h]

variable (logsAt) in
theorem reports_commitBlock {a : RethApplication} (h : a.stakeSource.Reports) (b : RethBlock)
    (answer : ElAnswer) : (a.commitBlock logsAt b answer).stakeSource.Reports := by
  rw [commitBlock, stakeSource_slashes]
  refine BondedStakeLedger.reports_foldl (fun l node h => BondedStakeLedger.reports_slash h node)
    ?_ b.offenders
  rcases a.commit_spec logsAt b answer with ⟨hsame, -⟩ | ⟨payload, -, -, -, hstake, -⟩
  · rwa [hsame]
  · rw [hstake]
    intro v w hw
    cases hw

end RethApplication

/-! ### The recorded weights -/

/-- The application, with the weight that was carried last for each validator, and the rounds of the
blocks so far. -/
structure WeightRun where
  app : RethApplication
  recorded : Table NodeId ℕ
  rounds : List (Round NodeId ℕ)

namespace WeightRun
variable (logsAt : ℕ → List Log)

/-- The registry starts with the stakes of the genesis. -/
def start (genesis : List (NodeId × ℕ)) (genesisRoot : Bytes32) : WeightRun where
  app := .start genesis genesisRoot
  recorded := (BondedStakeLedger.seededFrom genesis).stake
  rounds := []

/-- The commit of a block with the answer of the execution layer. -/
def step (s : WeightRun) (call : RethBlock × ElAnswer) : WeightRun where
  app := s.app.commitBlock logsAt call.1 call.2
  recorded := post s.recorded call.1.weights
  rounds := s.rounds ++ [s.app.round logsAt call.1 call.2]

def recordedWeight (s : WeightRun) (v : NodeId) : ℕ := (s.recorded.get? v).getD 0

/-- What is pending are the last derived weights that no later block carried, and the pending
weight, or else the recorded one, is the stake. -/
structure Accounted (s : WeightRun) : Prop where
  waiting : ∀ v w, s.app.pendingWeights.get? v = some w ↔ Waiting v w s.rounds
  stake : ∀ v, (s.app.pendingWeights.get? v).getD (s.recordedWeight v) =
    s.app.stakeSource.stakeOf v

def books (s : WeightRun) : Books NodeId ℕ where
  pending := s.app.pendingWeights
  delivered := s.recordedWeight
  latest := s.app.stakeSource.stakeOf

/-- A block that is not executed carries no pending weight. The weight that a block carries last for
a validator is its stake before the block, unless the block yields an update for it or another
weight stays pending for it. Of a convicted validator, what the block yields, or else carries last
while nothing else stays pending, or else its stake before the block, is zero. -/
structure CarriesCurrent (s : WeightRun) (call : RethBlock × ElAnswer) : Prop where
  executed : call.2 ≠ .valid → ∀ e ∈ call.1.weights, s.app.pendingWeights.get? e.1 ≠ some e.2
  current : ∀ v, v ∉ call.1.offenders → ∀ w, lastOf call.1.weights v = some w →
    w = s.app.stakeSource.stakeOf v ∨
      lastOf (s.app.round logsAt call.1 call.2).posts v ≠ none ∨
        s.books.Stays (s.app.round logsAt call.1 call.2) v
  convicted : ∀ v ∈ call.1.offenders, s.books.left (s.app.round logsAt call.1 call.2) v = 0

variable {logsAt}

theorem recordedWeight_step (s : WeightRun) (call : RethBlock × ElAnswer) (v : NodeId) :
    (s.step logsAt call).recordedWeight v =
      (lastOf call.1.weights v).getD (s.recordedWeight v) := by
  change ((post s.recorded call.1.weights).get? v).getD 0 = _
  rw [get?_post]
  cases lastOf call.1.weights v <;> rfl

variable (logsAt) in
/-- What waits after a block is what is pending then, exactly when the block is executed or carries
no pending weight. -/
theorem waiting_step_iff {s : WeightRun}
    (h : ∀ v w, s.app.pendingWeights.get? v = some w ↔ Waiting v w s.rounds)
    (call : RethBlock × ElAnswer) :
    (∀ v w, (s.step logsAt call).app.pendingWeights.get? v = some w ↔
        Waiting v w (s.step logsAt call).rounds) ↔
      (call.2 ≠ .valid → ∀ e ∈ call.1.weights, s.app.pendingWeights.get? e.1 ≠ some e.2) := by
  have hpending : ∀ v w, (s.step logsAt call).app.pendingWeights.get? v = some w ↔
      lastOf (s.app.round logsAt call.1 call.2).posts v = some w ∨
        lastOf (s.app.round logsAt call.1 call.2).posts v = none ∧
          s.app.pendingWeights.get? v = some w ∧
            (v, w) ∉ (s.app.heard logsAt call.1 call.2).acks := by
    intro v w
    change (s.app.commitBlock logsAt call.1 call.2).pendingWeights.get? v = some w ↔ _
    rw [RethApplication.pendingWeights_commitBlock, get?_next_eq_some]
    rfl
  have hwaiting : ∀ v w, Waiting v w (s.step logsAt call).rounds ↔
      lastOf (s.app.round logsAt call.1 call.2).posts v = some w ∨
        (s.app.pendingWeights.get? v = some w ∧
          lastOf (s.app.round logsAt call.1 call.2).posts v = none ∧ (v, w) ∉ call.1.weights) := by
    intro v w
    rw [h v w]
    exact waiting_append
  by_cases hvalid : call.2 = .valid
  · have hacks : (s.app.heard logsAt call.1 call.2).acks = call.1.weights := if_pos hvalid
    refine iff_of_true (fun v w => ?_) (fun hne => absurd hvalid hne)
    rw [hpending, hwaiting, hacks]
    tauto
  · have hacks : (s.app.heard logsAt call.1 call.2).acks = [] := if_neg hvalid
    have hposts : ∀ v, lastOf (s.app.round logsAt call.1 call.2).posts v = none := by
      intro v
      rcases s.app.commit_spec logsAt call.1 call.2 with
        ⟨-, hnone, -⟩ | ⟨-, hyes, -⟩
      · unfold RethApplication.round
        rw [hnone]
        rfl
      · exact absurd hyes hvalid
    constructor
    · intro hboth _ e he hold
      have hstays := (hboth e.1 e.2).mp ((hpending e.1 e.2).mpr
        (.inr ⟨hposts e.1, hold, by rw [hacks]; exact List.not_mem_nil⟩))
      rcases (hwaiting e.1 e.2).mp hstays with hpost | ⟨-, -, hout⟩
      · rw [hposts] at hpost
        cases hpost
      · exact hout he
    · intro hclear v w
      rw [hpending, hwaiting, hacks]
      have hout : s.app.pendingWeights.get? v = some w → (v, w) ∉ call.1.weights := fun hold he =>
        hclear hvalid (v, w) he hold
      simp only [List.not_mem_nil, not_false_eq_true, and_true]
      tauto

/-- With what waits as it should be, the books after a block are those of its round, and the stake
of whom it convicts is gone. -/
theorem stake_step_iff {s : WeightRun} (hreports : s.app.stakeSource.Reports)
    {call : RethBlock × ElAnswer}
    (hexecuted : call.2 ≠ .valid → ∀ e ∈ call.1.weights,
      s.app.pendingWeights.get? e.1 ≠ some e.2) (v : NodeId) :
    ((s.step logsAt call).app.pendingWeights.get? v).getD
        ((s.step logsAt call).recordedWeight v) = (s.step logsAt call).app.stakeSource.stakeOf v ↔
      s.books.standing (s.app.round logsAt call.1 call.2) v =
        if v ∈ call.1.offenders then 0
        else (lastOf (s.app.round logsAt call.1 call.2).posts v).getD
          (s.app.stakeSource.stakeOf v) := by
  have hpending : (s.step logsAt call).app.pendingWeights.get? v =
      (next s.app.pendingWeights (s.app.round logsAt call.1 call.2)).get? v := by
    change (s.app.commitBlock logsAt call.1 call.2).pendingWeights.get? v = _
    rw [RethApplication.pendingWeights_commitBlock]
    refine Option.ext fun w => ?_
    rw [get?_next_eq_some, get?_next_eq_some]
    refine or_congr_right (and_congr_right fun _ => and_congr_right fun hold => not_congr ?_)
    unfold RethApplication.heard
    by_cases hvalid : call.2 = .valid
    · rw [if_pos hvalid]
      rfl
    · rw [if_neg hvalid]
      exact iff_of_false List.not_mem_nil fun he => hexecuted hvalid (v, w) he hold
  have hstake : (s.step logsAt call).app.stakeSource.stakeOf v = _ :=
    RethApplication.stakeOf_commitBlock hreports call.1 call.2 v
  rw [hpending, recordedWeight_step, hstake]
  exact Eq.congr_left (s.books.standing_eq (s.app.round logsAt call.1 call.2) v)

theorem accounted_step_iff {s : WeightRun} (call : RethBlock × ElAnswer)
    (h : s.Accounted ∧ s.app.stakeSource.Reports) :
    ((s.step logsAt call).Accounted ∧ (s.step logsAt call).app.stakeSource.Reports) ↔
      s.CarriesCurrent logsAt call := by
  obtain ⟨haccounted, hreports⟩ := h
  have hreports' := RethApplication.reports_commitBlock logsAt hreports call.1 call.2
  have hwaiting := waiting_step_iff logsAt haccounted.waiting call
  have hleft := fun v => Books.standing_eq_left (s := s.books) (haccounted.stake v)
    (s.app.round logsAt call.1 call.2)
  have htimely := s.books.left_eq_latest_iff (s.app.round logsAt call.1 call.2)
  constructor
  · rintro ⟨haccounted', -⟩
    have hexecuted := hwaiting.mp haccounted'.waiting
    have hstanding := fun v => (stake_step_iff hreports hexecuted v).mp (haccounted'.stake v)
    refine ⟨hexecuted, fun v hv => ?_, fun v hv => ?_⟩
    · have hv' := hstanding v
      rw [if_neg hv, hleft] at hv'
      exact (htimely v).mp hv'
    · have hv' := hstanding v
      rwa [if_pos hv, hleft] at hv'
  · intro hcurrent
    refine ⟨⟨hwaiting.mpr hcurrent.executed, fun v => ?_⟩, hreports'⟩
    refine (stake_step_iff hreports hcurrent.executed v).mpr ?_
    rw [hleft]
    split_ifs with hv
    · exact hcurrent.convicted v hv
    · exact (htimely v).mpr (hcurrent.current v hv)

theorem accounted_start (genesis : List (NodeId × ℕ)) (genesisRoot : Bytes32) :
    (start genesis genesisRoot).Accounted where
  waiting v w := by
    rw [waiting_iff]
    rfl
  stake _ := rfl

/-- After every block, whatever the execution layer answered, what is pending are the last derived
weights that no later block carried, and the pending weight or else the recorded one is the stake,
exactly when each block carries current weights. -/
theorem weights_accounted_iff (logsAt : ℕ → List Log) (genesis : List (NodeId × ℕ))
    (genesisRoot : Bytes32) (calls : List (RethBlock × ElAnswer)) :
    (∀ k, (run (step logsAt) (start genesis genesisRoot) (calls.take k)).Accounted) ↔
      Along (step logsAt) (CarriesCurrent logsAt) (start genesis genesisRoot) calls := by
  have hstart : (start genesis genesisRoot).app.stakeSource.Reports := by
    intro v w hw
    cases hw
  have hiff : _ ↔ Along (step logsAt) (CarriesCurrent logsAt) (start genesis genesisRoot) calls :=
    along_iff_of_step (fun s call => accounted_step_iff (s := s) call)
      ⟨accounted_start genesis genesisRoot, hstart⟩
  rw [← hiff]
  refine forall_congr' fun k => (and_iff_left ?_).symm
  exact run_invariant (I := fun s : WeightRun => s.app.stakeSource.Reports)
    (fun s call h => RethApplication.reports_commitBlock logsAt h call.1 call.2) hstart _

end WeightRun

/-! ### Blocks of honest proposers -/

/-- What a node does with a block of the chain: the answer of its execution layer to the commit, and
the application that a restart, a catch-up replay or a restored snapshot then leaves it with, if
there is one before the next commit. -/
structure CommitTurn where
  answer : ElAnswer
  renewed : Option RethApplication
  deriving DecidableEq

namespace RethApplication
variable (logsAt : ℕ → List Log) (genesis : List (NodeId × ℕ)) (genesisRoot : Bytes32)

def turn (a : RethApplication) (call : RethBlock × CommitTurn) : RethApplication :=
  call.2.renewed.getD (a.commitBlock logsAt call.1 call.2.answer)

def callsOf (turns : ℕ → CommitTurn) (bs : List RethBlock) : List (RethBlock × CommitTurn) :=
  bs.mapIdx fun k b => (b, turns k)

/-- The node's application after the blocks. -/
def after (turns : ℕ → CommitTurn) (bs : List RethBlock) : RethApplication :=
  run (turn logsAt) (start genesis genesisRoot) (callsOf turns bs)

/-- Each block carries the weights that were pending at its proposer, which had then committed only
some of the blocks before. -/
def Honest (turns : ℕ → ℕ → CommitTurn) (proposer committed : ℕ → ℕ) (bs : List RethBlock) : Prop :=
  ∀ k b, bs[k]? = some b → committed k ≤ k ∧
    b.weights = (after logsAt genesis genesisRoot (turns (proposer k))
      (bs.take (committed k))).weightsForBuild

instance (turns : ℕ → ℕ → CommitTurn) (proposer committed : ℕ → ℕ) (bs : List RethBlock) :
    Decidable (Honest logsAt genesis genesisRoot turns proposer committed bs) :=
  decidable_of_iff (∀ k, ∀ hk : k < bs.length, committed k ≤ k ∧
      bs[k].weights = (after logsAt genesis genesisRoot (turns (proposer k))
        (bs.take (committed k))).weightsForBuild) (by
    constructor
    · intro h k b hb
      obtain ⟨hk, rfl⟩ := List.getElem?_eq_some_iff.mp hb
      exact h k hk
    · exact fun h k hk => h k bs[k] (List.getElem?_eq_getElem hk))

end RethApplication

/-- An application, the weights that were pending when it was renewed last, and the rounds of the
commits since. -/
structure WeightWatch where
  app : RethApplication
  base : Table NodeId ℕ
  rounds : List (Round NodeId ℕ)

namespace WeightWatch
variable (logsAt : ℕ → List Log)

def of (a : RethApplication) : WeightWatch := ⟨a, a.pendingWeights, []⟩

def step (s : WeightWatch) (call : RethBlock × CommitTurn) : WeightWatch :=
  match call.2.renewed with
  | some a => of a
  | none =>
    { s with
      app := s.app.commitBlock logsAt call.1 call.2.answer
      rounds := s.rounds ++ [s.app.heard logsAt call.1 call.2.answer] }

/-- What is pending comes of the rounds. -/
def Kept (s : WeightWatch) : Prop := s.app.pendingWeights = run next s.base s.rounds

variable {logsAt}

theorem kept_step {s : WeightWatch} (call : RethBlock × CommitTurn) (h : s.Kept) :
    (s.step logsAt call).Kept := by
  unfold step
  cases call.2.renewed with
  | some a => exact rfl
  | none =>
    change (s.app.commitBlock logsAt call.1 call.2.answer).pendingWeights = run next s.base _
    rw [RethApplication.pendingWeights_commitBlock, h, run_append]
    rfl

end WeightWatch

namespace RethApplication
variable (logsAt : ℕ → List Log) (genesis : List (NodeId × ℕ)) (genesisRoot : Bytes32)

variable {logsAt genesis genesisRoot}

end RethApplication

namespace Sample
open RethApplication

/-- A block at the height with one receipt for its logs, and weights in its `extraData`. -/
def weighing (height : ℕ) (logs : List Log) (weights : List (NodeId × ℕ)) : RethBlock where
  hash := height
  parentHash := height - 1
  height := height
  payload := some ⟨some height, 0, [⟨2, true, 21000, logs⟩], weights⟩
  offenders := []

/-- All commits of a node that executes each block. -/
def allExecuted (bs : List RethBlock) : List (RethBlock × ElAnswer) := bs.map fun b => (b, .valid)

/-- Validator 7 with stake 10 deposits 100, takes 60 out and deposits 60 again; the weights 110 and
50 are carried by blocks whose proposers are three blocks behind. -/
def oscillating : List RethBlock :=
  [weighing 1 [depositLog 7 100] [], weighing 2 [withdrawLog 7 60] [],
    weighing 3 [depositLog 7 60] [], weighing 4 [] [(7, 110)], weighing 5 [] [(7, 50)]]

/-- Validator 7 deposits 100, and a node does not execute the block that carries the weight. -/
def skipped : List (RethBlock × ElAnswer) :=
  [(weighing 1 [depositLog 7 100] [], .valid), (weighing 2 [] [(7, 110)], .syncing)]

/-- Evidence convicts validator 7, whose stake is recorded and not pending. -/
def convicted : RethBlock := { weighing 1 [] [] with offenders := [7] }

/-- The blocks are those of honest proposers; at the end the recorded weight is 50, nothing is
pending, and the stake is 110. A weight that a block carried stays pending where that block is not
executed, and a convicted validator has no stake while its weight stays recorded. -/
theorem older_weight_recorded :
    RethApplication.Honest nothingMissed [(7, 10)] 0 (fun _ _ => ⟨.valid, none⟩) id (fun k => k - 2)
        oscillating ∧
      ¬ (run (WeightRun.step nothingMissed) (.start [(7, 10)] 0)
          (allExecuted oscillating)).Accounted ∧
      ¬ (run (WeightRun.step nothingMissed) (.start [(7, 10)] 0) skipped).Accounted ∧
      ¬ (run (WeightRun.step nothingMissed) (.start [(7, 10)] 0)
          (allExecuted [convicted])).Accounted := by
  refine ⟨by decide +kernel, fun h => ?_, fun h => ?_, fun h => ?_⟩
  · have hseven := h.stake 7
    revert hseven
    decide +kernel
  · have hseven := h.waiting 7 110
    rw [waiting_iff] at hseven
    revert hseven
    decide +kernel
  · have hseven := h.stake 7
    revert hseven
    decide +kernel

end Sample
end Boule
