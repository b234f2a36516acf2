import Boule.Lib.Run
import Boule.Lib.Table
import Boule.Lib.Turns
import Boule.ValidatorHistory

/-! The pacemaker's leader selector: a weighted accumulator that is replayed from the view in
which the validator set came into force, with a cache of how far each replay has got. -/
namespace Boule

/-- `i128` arithmetic that stops at the ends of the range. -/
def saturateI128 (x : ℤ) : ℤ := max (-2 ^ 127) (min x (2 ^ 127 - 1))

theorem saturateI128_eq {x : ℤ} (hlo : -2 ^ 127 ≤ x) (hhi : x < 2 ^ 127) : saturateI128 x = x := by
  unfold saturateI128
  omega

def accumulatorStep (vs : ValidatorSet) (priorities : List ℤ) : List ℤ × ℕ :=
  let raised := List.zipWith (fun p (w : UInt64) => saturateI128 (p + w.toNat)) priorities
    vs.weights
  let bestIdx := firstMax raised
  (raised.modify bestIdx fun p => saturateI128 (p - vs.totalWeight), bestIdx)

/-- The loop over `rounds` views: priorities and the leader of the last view. -/
def accumulate (vs : ValidatorSet) (rounds : ℕ) (acc : List ℤ × ℕ) : List ℤ × ℕ :=
  (fun acc => accumulatorStep vs acc.1)^[rounds] acc

def zeroPriorities (vs : ValidatorSet) : List ℤ := List.replicate vs.len 0

/-- The priorities and the leader after `rounds` views of a regime. -/
def replay (vs : ValidatorSet) (rounds : ℕ) : List ℤ × ℕ :=
  accumulate vs rounds (zeroPriorities vs, 0)

theorem accumulate_add (vs : ValidatorSet) (m n : ℕ) (acc : List ℤ × ℕ) :
    accumulate vs (m + n) acc = accumulate vs m (accumulate vs n acc) :=
  Function.iterate_add_apply _ m n acc

/-- Only the priorities are carried from round to round. -/
theorem accumulate_congr (vs : ValidatorSet) {rounds : ℕ} (h : 0 < rounds) {acc acc' : List ℤ × ℕ}
    (hacc : acc.1 = acc'.1) : accumulate vs rounds acc = accumulate vs rounds acc' := by
  obtain ⟨k, rfl⟩ := Nat.exists_eq_succ_of_ne_zero (Nat.ne_of_gt h)
  unfold accumulate
  rw [Function.iterate_succ_apply, Function.iterate_succ_apply, hacc]

theorem replay_succ (vs : ValidatorSet) (t : ℕ) :
    replay vs (t + 1) = accumulatorStep vs (replay vs t).1 :=
  Function.iterate_succ_apply' _ t _

/-! ### Regimes -/

def regimeStartLoop (view : ℕ) : ℕ → List Boundary → ℕ
  | start, [] => start
  | start, b :: bs => if b.vEff ≤ view then regimeStartLoop view b.vEff bs else start

/-- The view in which the set of `view` came into force. -/
def regimeStartFor (history : ValidatorSetHistory) (view : ℕ) : ℕ :=
  regimeStartLoop view 0 history.boundaries

theorem regimeStartLoop_spec {view start : ℕ} {bs : List Boundary} (hs : start ≤ view)
    (hsorted : (bs.map Boundary.vEff).Pairwise (· < ·)) (hle : ∀ b ∈ bs, start ≤ b.vEff) :
    start ≤ regimeStartLoop view start bs ∧ regimeStartLoop view start bs ≤ view ∧
      ∀ b ∈ bs, b.vEff ≤ view → b.vEff ≤ regimeStartLoop view start bs := by
  induction bs generalizing start with
  | nil => exact ⟨Nat.le_refl _, hs, by simp⟩
  | cons b bs ih =>
    rw [List.map_cons, List.pairwise_cons] at hsorted
    have hrest : ∀ c ∈ bs, b.vEff < c.vEff := fun c hc => hsorted.1 _ (List.mem_map_of_mem hc)
    have hb := hle b (List.mem_cons_self ..)
    rw [regimeStartLoop]
    split_ifs with hv
    · obtain ⟨h1, h2, h3⟩ := ih hv hsorted.2 fun c hc => (hrest c hc).le
      refine ⟨hb.trans h1, h2, fun c hc hcv => ?_⟩
      rcases List.mem_cons.mp hc with rfl | hc
      · exact h1
      · exact h3 c hc hcv
    · refine ⟨Nat.le_refl _, hs, fun c hc hcv => ?_⟩
      rcases List.mem_cons.mp hc with rfl | hc
      · exact absurd hcv hv
      · have := hrest c hc
        omega

theorem regimeStartFor_le (h : ValidatorSetHistory) (v : ℕ) : regimeStartFor h v ≤ v :=
  (regimeStartLoop_spec (Nat.zero_le v) h.sorted fun _ _ => Nat.zero_le _).2.1

/-- The set of a view is the set in force when its regime starts. -/
theorem setAt_regimeStartFor (h : ValidatorSetHistory) (v : ℕ) :
    h.setAt (regimeStartFor h v) = h.setAt v := by
  obtain ⟨-, hle, hmax⟩ :=
    regimeStartLoop_spec (Nat.zero_le v) h.sorted fun _ _ => Nat.zero_le _
  apply Option.some.inj
  rw [ValidatorSetHistory.setAt_eq_lastLe, ValidatorSetHistory.setAt_eq_lastLe, Search.lastLe,
    Search.lastLe]
  congr 2
  apply List.filter_congr
  intro e he
  obtain ⟨b, hb, rfl⟩ := List.mem_map.mp he
  rw [decide_eq_decide]
  exact ⟨fun hbs => hbs.trans hle, fun hbv => hmax b hb hbv⟩

/-! ### The selector -/

structure RegimeFrontier where
  lastView : Option ℕ
  priorities : List ℤ
  deriving DecidableEq

/-- The constructor asserts that no boundary has an empty set. -/
structure WeightedAccumulatorSelector where
  history : ValidatorSetHistory
  nonempty : ∀ b ∈ history.boundaries, b.set.members ≠ []
  state : Table ℕ RegimeFrontier

namespace WeightedAccumulatorSelector

def new (history : ValidatorSetHistory)
    (nonempty : ∀ b ∈ history.boundaries, b.set.members ≠ []) : WeightedAccumulatorSelector :=
  ⟨history, nonempty, ∅⟩

def leaderForView (sel : WeightedAccumulatorSelector) (view : ℕ) :
    Option NodeId × WeightedAccumulatorSelector :=
  let vs := sel.history.setAt view
  let regimeStart := regimeStartFor sel.history view
  let frontier := (sel.state.get? regimeStart).getD ⟨none, zeroPriorities vs⟩
  if frontier.lastView.any (view ≤ ·) then
    (vs.get? (replay vs (view + 1 - regimeStart)).2,
      { sel with state := sel.state.insert regimeStart frontier })
  else
    let startView := frontier.lastView.elim regimeStart (· + 1)
    let (priorities, leaderIdx) := accumulate vs (view + 1 - startView) (frontier.priorities, 0)
    (vs.get? leaderIdx,
      { sel with state := sel.state.insert regimeStart ⟨some view, priorities⟩ })

/-- The selector after it was asked for the leaders of `views`. -/
def asked (sel : WeightedAccumulatorSelector) (views : List ℕ) : WeightedAccumulatorSelector :=
  run (fun sel view => (sel.leaderForView view).2) sel views

/-- Every frontier is the replay of its regime up to its last view. -/
def FrontiersOk (sel : WeightedAccumulatorSelector) : Prop :=
  ∀ s frontier, sel.state.get? s = some frontier → ∃ last, frontier.lastView = some last ∧
    regimeStartFor sel.history last = s ∧
    frontier.priorities = (replay (sel.history.setAt s) (last + 1 - s)).1

end WeightedAccumulatorSelector

/-- The leader of a view by a full replay of its regime. -/
def scheduledLeader (history : ValidatorSetHistory) (view : ℕ) : Option NodeId :=
  (history.setAt view).get?
    (replay (history.setAt view) (view + 1 - regimeStartFor history view)).2

namespace WeightedAccumulatorSelector
variable {sel : WeightedAccumulatorSelector}

/-- A cached frontier continues to the replay up to `view`. -/
theorem accumulate_frontier {vs : ValidatorSet} {s last view : ℕ} (hs : s ≤ last)
    (hlt : last < view) :
    accumulate vs (view + 1 - (last + 1)) ((replay vs (last + 1 - s)).1, 0) =
      replay vs (view + 1 - s) := by
  have hrounds : view + 1 - s = (view + 1 - (last + 1)) + (last + 1 - s) := by omega
  rw [hrounds, replay, replay, accumulate_add]
  exact accumulate_congr vs (by omega) rfl

/-- The cache never shows: the answer is that of a full replay. -/
theorem leaderForView_spec (h : sel.FrontiersOk) (view : ℕ) :
    (sel.leaderForView view).1 = scheduledLeader sel.history view ∧
      (sel.leaderForView view).2.history = sel.history ∧
      (sel.leaderForView view).2.FrontiersOk := by
  have hle := regimeStartFor_le sel.history view
  have hset := setAt_regimeStartFor sel.history view
  have hother : ∀ frontier, (∃ last, frontier.lastView = some last ∧
        regimeStartFor sel.history last = regimeStartFor sel.history view ∧
        frontier.priorities = (replay (sel.history.setAt (regimeStartFor sel.history view))
          (last + 1 - regimeStartFor sel.history view)).1) →
      FrontiersOk { sel with
        state := sel.state.insert (regimeStartFor sel.history view) frontier } := by
    intro frontier hf s f hs
    have hs' : Table.get? (sel.state.insert (regimeStartFor sel.history view) frontier) s =
      some f := hs
    rw [Table.get?_insert] at hs'
    split_ifs at hs' with he
    · obtain rfl := Option.some.inj hs'
      subst he
      exact hf
    · exact h s f hs'
  cases hget : sel.state.get? (regimeStartFor sel.history view) with
  | none =>
    simp only [leaderForView, hget, Option.getD_none, Option.any_none, Bool.false_eq_true,
      if_false, Option.elim_none]
    exact ⟨rfl, trivial, hother _ ⟨view, rfl, rfl, by rw [hset]; rfl⟩⟩
  | some frontier =>
    obtain ⟨last, hlast, hstart, hprio⟩ := h _ _ hget
    simp only [leaderForView, hget, Option.getD_some, hlast, Option.any_some, decide_eq_true_eq]
    split_ifs with hv
    · exact ⟨rfl, rfl, hother frontier ⟨last, hlast, hstart, hprio⟩⟩
    · have hs : regimeStartFor sel.history view ≤ last := hstart ▸ regimeStartFor_le _ last
      have hacc : accumulate (sel.history.setAt view) (view + 1 - (last + 1))
          (frontier.priorities, 0) =
          replay (sel.history.setAt view) (view + 1 - regimeStartFor sel.history view) := by
        rw [hprio, hset]
        exact accumulate_frontier hs (by omega)
      simp only [Option.elim_some, hacc]
      exact ⟨rfl, trivial, hother _ ⟨view, rfl, rfl, by rw [hset]⟩⟩

theorem asked_spec (h : sel.FrontiersOk) (views : List ℕ) :
    (sel.asked views).history = sel.history ∧ (sel.asked views).FrontiersOk := by
  induction views generalizing sel with
  | nil => exact ⟨rfl, h⟩
  | cons v views ih =>
    obtain ⟨-, hhist, hok⟩ := leaderForView_spec h v
    obtain ⟨hhist', hok'⟩ := ih hok
    exact ⟨hhist'.trans hhist, hok'⟩

theorem frontiersOk_new (history : ValidatorSetHistory)
    (nonempty : ∀ b ∈ history.boundaries, b.set.members ≠ []) :
    (new history nonempty).FrontiersOk := by
  intro s frontier hs
  have hn : Table.get? (∅ : Table ℕ RegimeFrontier) s = some frontier := hs
  simp at hn

/-- Whatever a fresh selector was asked before, it announces the scheduled leader. -/
theorem leaderForView_asked (history : ValidatorSetHistory)
    (nonempty : ∀ b ∈ history.boundaries, b.set.members ≠ []) (views : List ℕ) (view : ℕ) :
    (((new history nonempty).asked views).leaderForView view).1 = scheduledLeader history view := by
  obtain ⟨hhist, hok⟩ := asked_spec (frontiersOk_new history nonempty) views
  rw [(leaderForView_spec hok view).1, hhist]
  rfl

/-- The answers to the queries, one after the other. -/
def answers : WeightedAccumulatorSelector → List ℕ → List (Option NodeId)
  | _, [] => []
  | sel, view :: views =>
    let (leader, sel) := sel.leaderForView view
    leader :: answers sel views

theorem answers_eq_map (h : sel.FrontiersOk) (views : List ℕ) :
    sel.answers views = views.map (scheduledLeader sel.history) := by
  induction views generalizing sel with
  | nil => rfl
  | cons v views ih =>
    obtain ⟨hleader, hhist, hok⟩ := leaderForView_spec h v
    have hrest := ih hok
    rw [hhist] at hrest
    rw [List.map_cons, ← hleader, ← hrest]
    rfl

end WeightedAccumulatorSelector

/-- The priorities of a regime stay as many as its validators. -/
theorem length_replay (vs : ValidatorSet) (t : ℕ) : (replay vs t).1.length = vs.len := by
  have hweights : vs.weights.length = vs.len := vs.weights_length
  induction t with
  | zero => exact List.length_replicate
  | succ t ih =>
    rw [replay_succ]
    simp [accumulatorStep, ih, hweights]

theorem replay_lt_len {vs : ValidatorSet} (hvs : vs.members ≠ []) (t : ℕ) :
    (replay vs (t + 1)).2 < vs.len := by
  have hpos : 0 < vs.len := List.length_pos_of_ne_nil hvs
  have hweights : vs.weights.length = vs.len := vs.weights_length
  have hlen := length_replay vs t
  rw [replay_succ]
  have hfirst := isFirstMax_firstMax (l := List.zipWith
    (fun p (w : UInt64) => saturateI128 (p + w.toNat)) (replay vs t).1 vs.weights) (by
      rw [← List.length_pos_iff, List.length_zipWith]
      omega)
  obtain ⟨x, hx, -⟩ := hfirst
  have hlt := (List.getElem?_eq_some_iff.mp hx).1
  rw [List.length_zipWith] at hlt
  exact hlt.trans_le (by omega)

/-- The leader of a view is a member of its set: `expect` never panics. -/
theorem isSome_scheduledLeader {history : ValidatorSetHistory}
    (nonempty : ∀ b ∈ history.boundaries, b.set.members ≠ []) (view : ℕ) :
    (scheduledLeader history view).isSome := by
  have hle := regimeStartFor_le history view
  have hrounds : view + 1 - regimeStartFor history view =
      (view - regimeStartFor history view) + 1 := by omega
  have hmembers : (history.setAt view).members ≠ [] := nonempty _ (List.get_mem _ _)
  unfold scheduledLeader ValidatorSet.get?
  rw [hrounds, List.getElem?_eq_getElem (replay_lt_len hmembers _)]
  rfl

/-- A selector is asked for any views in any order: each answer is the leader that a full replay
of the view's regime gives, and no other queries change it. -/
theorem leaders_are_scheduled {history : ValidatorSetHistory}
    (nonempty : ∀ b ∈ history.boundaries, b.set.members ≠ []) (views views' : List ℕ) :
    (WeightedAccumulatorSelector.new history nonempty).answers views =
        views.map (scheduledLeader history) ∧
      (∀ view, (scheduledLeader history view).isSome) ∧
      ∀ view,
        (((WeightedAccumulatorSelector.new history nonempty).asked views).leaderForView view).1 =
          (((WeightedAccumulatorSelector.new history nonempty).asked views').leaderForView
            view).1 := by
  have hnew := WeightedAccumulatorSelector.frontiersOk_new history nonempty
  refine ⟨WeightedAccumulatorSelector.answers_eq_map hnew views,
    isSome_scheduledLeader nonempty, fun view => ?_⟩
  have hfirst := WeightedAccumulatorSelector.leaderForView_asked history nonempty views view
  have hsecond := WeightedAccumulatorSelector.leaderForView_asked history nonempty views' view
  rw [hfirst, hsecond]

namespace Sample

/-- Validator 4 with three times the weight of validator 5, and from view 5 on validator 6
alone. -/
def twoRegimes : ValidatorSetHistory where
  boundaries :=
    [⟨0, { members := [4, 5], weights := [3, 1], sorted := by decide,
           weights_length := by decide, weights_ne_zero := by simp, length_lt := by decide }⟩,
      ⟨5, { members := [6], weights := [1], sorted := by decide,
            weights_length := by decide, weights_ne_zero := by simp, length_lt := by decide }⟩]
  head_zero := rfl
  sorted := by decide

/-- Queries that jump between the regimes and back. -/
theorem twoRegimes_scheduled :
    (WeightedAccumulatorSelector.new twoRegimes (by decide)).answers [7, 2, 4, 0, 5, 2] =
        [some 6, some 5, some 4, some 4, some 6, some 5] ∧
      ∀ view, (scheduledLeader twoRegimes view).isSome := by
  have nonempty : ∀ b ∈ twoRegimes.boundaries, b.set.members ≠ [] := by decide
  obtain ⟨hanswers, hsome, -⟩ := leaders_are_scheduled nonempty [7, 2, 4, 0, 5, 2] []
  refine ⟨?_, hsome⟩
  rw [hanswers]
  decide +kernel

end Sample

end Boule
