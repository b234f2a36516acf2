import Boule.Node.ExecutionLag

/-! The stake of a node that restarts or restores a snapshot, next to one that never does. -/
namespace Boule

/-- A snapshot holds a frontier of the execution layer, its manifest a block of the chain. -/
inductive StakeInput where
  | commit (answer : ElAnswer)
  | replay (minGap : ℕ) (elHead : Option ℕ) (answers : ℕ → ElAnswer)
  | restart (finalized : Option ℕ)
  | restore (snapshot : Frontier) (k : ℕ)

/-- The part of `restore_from_snapshot` that concerns the execution layer. -/
def ElNode.restoreFromSnapshot (n : ElNode) (snapshot : Frontier) (b : RethBlock) : ElNode :=
  { n with
    app := n.app.restore snapshot
    lastCommittedHeight := max n.lastCommittedHeight b.height
    retained := n.retained ++ [b] }

/-- Neither the stake nor the pending weights change with the block. -/
def Inert (b : RethBlock) : Prop := StakeQuiet b.logs ∧ b.weights = []

instance : DecidablePred Inert := fun _ => inferInstanceAs (Decidable (_ ∧ _))

section
variable (logsAt : ℕ → List Log) (window : ℕ) (genesis : List (NodeId × ℕ))
  (genesisRoot : Bytes32) (c : CommittedChain)

def stakeStep (n : ElNode) : StakeInput → ElNode
  | .commit answer => RootSystem.commitNext logsAt window c n answer
  | .replay minGap elHead answers => n.elCatchupReplay logsAt minGap elHead answers
  | .restart finalized => n.restart genesis genesisRoot (finalized.bind c.finalizedHead)
  | .restore snapshot k =>
    match c.blocks[k]? with
    | none => n
    | some b => n.restoreFromSnapshot snapshot b

/-- The frontier that a restart recovers. -/
def recovered (finalized : Option ℕ) : ℕ :=
  ((finalized.bind c.finalizedHead).map Prod.fst).getD 0

/-- A later block is executed, this one is not. -/
def Skipped (replayed : List RethBlock) (answers : ℕ → ElAnswer) (b : RethBlock) :
    Prop :=
  answers b.height ≠ .valid ∧ ∃ b' ∈ replayed, b.height < b'.height ∧ answers b'.height = .valid

/-- What is skipped or executed twice changes no stake, and no update waits then. A restart needs
that no evidence was committed, and that no block up to the recovered frontier changed a stake. -/
def Rebuilt (n : ElNode) : StakeInput → Prop
  | .commit answer =>
    if answer = .valid then
      ∀ b ∈ c.blocks, n.app.committed.height < b.height → b.height ≤ n.lastCommittedHeight →
        Inert b ∧ n.app.stakeSource.pending = []
    else
      n.app.committed.height ≤ n.lastCommittedHeight ∧
        ∀ b ∈ c.blocks[n.lastCommittedHeight]?, b.offenders = []
  | .replay minGap elHead answers =>
    (∃ b ∈ n.replayed minGap elHead, answers b.height = .valid) →
      ∀ b ∈ n.replayed minGap elHead,
        b.height ≤ n.app.committed.height ∨ Skipped (n.replayed minGap elHead) answers b →
          Inert b ∧ n.app.stakeSource.pending = []
  | .restart finalized =>
    ∀ b ∈ c.blocks, b.height ≤ n.lastCommittedHeight →
      b.offenders = [] ∧ (b.height ≤ recovered c finalized → StakeQuiet b.logs)
  | .restore snapshot k => ∀ b ∈ c.blocks[k]?,
    snapshot.height ≤ max n.lastCommittedHeight b.height ∧
      (∀ b' ∈ c.blocks, b'.height ≤ snapshot.height →
        min n.app.committed.height n.lastCommittedHeight < b'.height →
          Inert b' ∧ n.app.stakeSource.pending = []) ∧
      (∀ b' ∈ c.blocks, snapshot.height < b'.height → b'.height ≤ n.app.committed.height →
        Inert b' ∧ n.app.stakeSource.pending = []) ∧
      ∀ b' ∈ c.blocks, n.lastCommittedHeight < b'.height → b'.height ≤ b.height →
        b'.offenders = []

instance Skipped.decidable (replayed : List RethBlock) (answers : ℕ → ElAnswer)
    (b : RethBlock) : Decidable (Skipped replayed answers b) :=
  inferInstanceAs (Decidable (_ ∧ _))

instance Rebuilt.decidable : ∀ n input, Decidable (Rebuilt c n input)
  | _, .commit _ => inferInstanceAs (Decidable (ite _ _ _))
  | _, .replay .. => inferInstanceAs (Decidable ((∃ b ∈ _, _) → ∀ b ∈ _, _))
  | _, .restart _ => inferInstanceAs (Decidable (∀ b ∈ _, _))
  | _, .restore .. => inferInstanceAs (Decidable (∀ b ∈ _, _))

/-- The two nodes agree on the stake, on what unbonds after the last commit, on the pending updates
and weights, and on what any later logs yield. -/
structure SameLedger (n n' : ElNode) : Prop where
  alike : AlikeAt n.lastCommittedHeight n.app.stakeSource n'.app.stakeSource
  weights : n.app.pendingWeights = n'.app.pendingWeights
  updates : ∀ height logs, n.lastCommittedHeight ≤ height →
    (n.app.stakeSource.deriveValidatorUpdates height logs).2 =
      (n'.app.stakeSource.deriveValidatorUpdates height logs).2

variable {logsAt window genesis genesisRoot c} {base : ℕ}

/-! ### Inert blocks -/

/-- The block at the height, if there is one, is inert. -/
def InertAt (c : CommittedChain) (i : ℕ) : Prop := ∀ b ∈ c.blocks, b.height = i → Inert b

theorem CommittedChain.exists_block (c : CommittedChain) {i : ℕ} (hpos : 0 < i)
    (hlen : i ≤ c.blocks.length) : ∃ b, c.blocks[i - 1]? = some b ∧ b.height = i := by
  have hget := List.getElem?_eq_getElem (show i - 1 < c.blocks.length by omega)
  exact ⟨_, hget, by rw [c.height _ _ hget]; omega⟩

theorem InertAt.quiet (hc : Numbered logsAt base c) {i : ℕ} (h : InertAt c i) (hpos : 0 < i)
    (hlen : i ≤ c.blocks.length) : StakeQuiet (logsAt (base + i)) := by
  obtain ⟨b, hb, hheight⟩ := c.exists_block hpos hlen
  have hmem := List.mem_of_getElem? hb
  have hlogs := hc.logs_eq hmem
  rw [hheight] at hlogs
  exact hlogs ▸ (h b hmem hheight).1

variable (logsAt base) in
theorem AlikeAt.absorbAll {m : ℕ} {l l' : BondedStakeLedger} (h : AlikeAt m l l')
    {heights : List ℕ} (hquiet : ∀ i ∈ heights, i ≤ m ∧ StakeQuiet (logsAt (base + i))) :
    AlikeAt m (absorbAll logsAt base l heights) l' := by
  induction heights generalizing l with
  | nil => exact h
  | cons i heights ih =>
    obtain ⟨hle, hi⟩ := hquiet i (List.mem_cons_self ..)
    have hfirst : AlikeAt m (l.absorb i (logsAt (base + i))) l' := by
      rw [l.absorb_of_quiet hi]
      exact h.advance_left hle
    exact ih hfirst fun i hi => hquiet i (List.mem_cons_of_mem _ hi)

theorem reconcile_nil {pending : Table NodeId ℕ} {carried : List (NodeId × ℕ)}
    (h : carried = [] ∨ pending = ∅) :
    RethApplication.reconcilePendingWeights pending carried [] = pending := by
  rcases h with rfl | rfl
  · rfl
  · induction carried with
    | nil => rfl
    | cons e carried ih =>
      unfold RethApplication.reconcilePendingWeights at ih ⊢
      rw [List.foldl_cons, Table.get?_empty, if_neg (by simp)]
      exact ih

/-- Blocks without effects leave the ledger as it was. -/
theorem AlwaysExecutes.alikeAt {r : ℕ → ElNode} (hr : AlwaysExecutes c r) {m k : ℕ}
    {l : BondedStakeLedger} (h : AlikeAt m l (r m).app.stakeSource) (hle : m ≤ k)
    (hk : k ≤ c.blocks.length) (hpending : m < k → l.pending = [])
    (hclean : ∀ b ∈ c.blocks, m < b.height → b.height ≤ k → b.offenders = [])
    (hinert : ∀ b ∈ c.blocks, m < b.height → b.height ≤ k →
      StakeQuiet b.logs ∧ (b.weights = [] ∨ (r m).app.pendingWeights = ∅)) :
    AlikeAt k l (r k).app.stakeSource ∧ (r k).app.pendingWeights = (r m).app.pendingWeights := by
  induction k with
  | zero =>
    obtain rfl : m = 0 := by omega
    exact ⟨h, rfl⟩
  | succ k ih =>
    by_cases hlast : m = k + 1
    · subst hlast
      exact ⟨h, rfl⟩
    · obtain ⟨hk', hweights⟩ := ih (by omega) (by omega) (fun hlt => hpending (by omega))
        (fun b hb hlow hhigh => hclean b hb hlow (by omega))
        (fun b hb hlow hhigh => hinert b hb hlow (by omega))
      have hget := List.getElem?_eq_getElem (show k < c.blocks.length by omega)
      have hmem := List.mem_of_getElem? hget
      have hheight := c.height k _ hget
      obtain ⟨hquiet, hcarried⟩ := hinert _ hmem (by omega) (by omega)
      have hoffenders := hclean _ hmem (by omega) (by omega)
      have hnone : (r k).app.stakeSource.pending = [] := hk'.pending ▸ hpending (by omega)
      have hstake := hr.stakeSource k _ hget
      have hpw := hr.pendingWeights k _ hget
      rw [hoffenders, List.foldl_nil, BondedStakeLedger.absorb_of_quiet hquiet, hheight] at hstake
      rw [BondedStakeLedger.absorb_of_quiet hquiet, BondedStakeLedger.pending_advanceToHeight,
        hnone, reconcile_nil (hcarried.imp_right fun hempty => hweights.trans hempty)] at hpw
      refine ⟨?_, hpw.trans hweights⟩
      rw [hstake]
      have hadvanced := ((hk'.mono (Nat.le_succ k)).symm.advance_left (le_refl (k + 1))).symm
      exact
        { stake := hadvanced.stake
          queue := hadvanced.queue
          pending := hpending (by omega) }

/-- An application that has absorbed what the node `r m` has. A frontier below `m` leaves only
inert blocks in between. -/
structure Carries (c : CommittedChain) (r : ℕ → ElNode) (a : RethApplication) (m : ℕ) : Prop where
  alike : AlikeAt m a.stakeSource (r m).app.stakeSource
  weights : a.pendingWeights = (r m).app.pendingWeights
  inert : ∀ i, a.committed.height < i → i ≤ m → InertAt c i
  settled : a.committed.height < m → a.stakeSource.pending = []

namespace Carries
variable {r : ℕ → ElNode} {a a' : RethApplication} {m : ℕ}

/-- A block above all that was absorbed. -/
theorem commit (h : Carries c r a m) (hr : AlwaysExecutes c r) (hc : Numbered logsAt base c)
    {b : RethBlock} (hb : b ∈ c.blocks) (hm : m < b.height)
    (hclean : ∀ b' ∈ c.blocks, m < b'.height → b'.height < b.height → b'.offenders = [])
    (hskipped : ∀ i, m < i → i < b.height → InertAt c i ∧ a.stakeSource.pending = [])
    (hheight : a'.committed.height = b.height)
    (hstake : a'.stakeSource = b.offenders.foldl .slash (absorbAll logsAt base a.stakeSource
      (executes a.committed.height b.height)).takeUpdates.1)
    (hweights : a'.pendingWeights = RethApplication.reconcilePendingWeights a.pendingWeights
      b.weights (absorbAll logsAt base a.stakeSource
        (executes a.committed.height b.height)).pending) :
    Carries c r a' b.height := by
  obtain ⟨k, hk, hget⟩ := List.mem_iff_getElem.mp hb
  have hget' : c.blocks[k]? = some b := by rw [List.getElem?_eq_getElem hk, hget]
  have hbk := c.height k b hget'
  obtain ⟨halike, hpw⟩ := hr.alikeAt h.alike (show m ≤ k by omega) hk.le
    (fun hlt => (hskipped k hlt (by omega)).2)
    (fun b' hb' hlow hhigh => hclean b' hb' hlow (by omega))
    (fun b' hb' hlow hhigh =>
      ((hskipped _ hlow (by omega)).1 b' hb' rfl).imp_right .inl)
  have hquiet : ∀ i ∈ List.range' (a.committed.height + 1)
      (b.height - (a.committed.height + 1)), i ≤ k ∧ StakeQuiet (logsAt (base + i)) := by
    intro i hi
    have hi := List.mem_range'_1.mp hi
    refine ⟨by omega, InertAt.quiet hc ?_ (by omega) (by omega)⟩
    by_cases hlow : i ≤ m
    · exact h.inert i (by omega) hlow
    · exact (hskipped i (by omega) (by omega)).1
  have hgap := halike.absorbAll logsAt base hquiet
  have hown := hgap.absorb (show k ≤ b.height by omega) (logsAt (base + b.height))
  have hl : absorbAll logsAt base a.stakeSource (executes a.committed.height b.height) =
      (absorbAll logsAt base a.stakeSource (List.range' (a.committed.height + 1)
        (b.height - (a.committed.height + 1)))).absorb b.height (logsAt (base + b.height)) := by
    rw [executes, absorbAll_append]
    rfl
  rw [← hl] at hown
  have hlogs := hc.logs_eq hb
  have hr₁ := hr.stakeSource k b hget'
  have hr₂ := hr.pendingWeights k b hget'
  rw [← hbk, hlogs] at hr₁ hr₂
  refine ⟨?_, ?_, fun i hlow hhigh => ?_, fun hlow => ?_⟩
  · rw [hstake, hr₁]
    exact hown.take.slashes b.offenders
  · rw [hweights, hr₂, h.weights, hpw, hown.pending]
  · omega
  · omega

/-- A block that was absorbed before. -/
theorem recommit (h : Carries c r a m) (hc : Numbered logsAt base c) {b : RethBlock}
    (hb : b ∈ c.blocks) (hle : b.height ≤ m) (hm : m ≤ c.blocks.length)
    (hpending : a.stakeSource.pending = [])
    (hinert : ∀ i, min a.committed.height (b.height - 1) < i → i ≤ m → InertAt c i)
    (hheight : a'.committed.height = b.height)
    (hstake : a'.stakeSource = (absorbAll logsAt base a.stakeSource
      (executes a.committed.height b.height)).takeUpdates.1)
    (hweights : a'.pendingWeights = RethApplication.reconcilePendingWeights a.pendingWeights
      b.weights (absorbAll logsAt base a.stakeSource
        (executes a.committed.height b.height)).pending) :
    Carries c r a' m := by
  have hpos : 0 < b.height := by
    obtain ⟨k, hk⟩ := List.mem_iff_getElem?.mp hb
    rw [c.height k b hk]
    omega
  have hquiet : ∀ i ∈ executes a.committed.height b.height,
      i ≤ m ∧ StakeQuiet (logsAt (base + i)) := by
    intro i hi
    have hi : min a.committed.height (b.height - 1) < i ∧ i ≤ b.height := by
      rcases mem_executes hi with hgap | rfl <;> omega
    exact ⟨by omega, InertAt.quiet hc (hinert i hi.1 (by omega)) (by omega) (by omega)⟩
  have halike := h.alike.absorbAll logsAt base hquiet
  have hkept := pending_absorbAll base (fun i hi => (hquiet i hi).2) a.stakeSource
  have hnone := hkept.trans hpending
  have hcarried := (hinert b.height (by omega) hle b hb rfl).2
  refine ⟨?_, ?_, fun i hlow hhigh => ?_, fun _ => ?_⟩
  · rw [hstake]
    exact
      { stake := halike.stake
        queue := halike.queue
        pending := hpending.symm.trans h.alike.pending }
  · rw [hweights, hnone, reconcile_nil (.inl hcarried), h.weights]
  · exact hinert i (by omega) hhigh
  · rw [hstake]
    rfl

end Carries

/-! ### A replay, block by block -/

theorem map_filterMap {α β : Type} {f : α → Option β} {g : β → α}
    (hf : ∀ a b, f a = some b → g b = a) {l : List α} (h : l.length ≤ (l.filterMap f).length) :
    (l.filterMap f).map g = l := by
  induction l with
  | nil => rfl
  | cons a l ih =>
    cases ha : f a with
    | none =>
      rw [List.filterMap_cons_none ha, List.length_cons] at h
      have hle := List.length_filterMap_le f l
      omega
    | some b =>
      rw [List.filterMap_cons_some ha, List.length_cons, List.length_cons] at h
      rw [List.filterMap_cons_some ha, List.map_cons, hf a b ha, ih (by omega)]

/-- A replay has all blocks above its start, one after the other. -/
theorem ElNode.replayed_heights (n : ElNode) (minGap : ℕ) (elHead : Option ℕ) :
    n.replayed minGap elHead = [] ∨ (n.replayed minGap elHead).map RethBlock.height =
      List.range' (n.elFrontier elHead + 1) (n.lastCommittedHeight - n.elFrontier elHead) := by
  simp only [replayed]
  split_ifs with hsmall hstored
  · exact .inl rfl
  · exact .inl rfl
  · refine .inr (map_filterMap (fun h b hfind => by simpa using List.find?_some hfind) ?_)
    rw [List.length_range']
    omega

/-- What holds when a replay from above `low` has come to the height `y`: `first` is the frontier
that it met, `waiting` the updates that were pending then. -/
structure Replaying (c : CommittedChain) (r : ℕ → ElNode) (answers : ℕ → ElAnswer)
    (low first top : ℕ) (waiting : List ValidatorUpdate) (y : ℕ) (a : RethApplication) (m : ℕ) :
    Prop where
  carries : Carries c r a m
  known : m ≤ top
  reached : a.committed.height ≤ m ∨ m = top
  above : low ≤ a.committed.height
  place : a.committed.height = first ∨ a.committed.height ≤ y
  skipped : ∀ i, m < i → low < i → i ≤ y → answers i ≠ .valid
  emptied : waiting = [] → a.stakeSource.pending = []

/-- The blocks of a replay that goes from `low` to `top`, with what the condition says of them:
`m₀` is what was absorbed before. -/
structure ReplayFits (c : CommittedChain) (answers : ℕ → ElAnswer) (low first top m₀ : ℕ)
    (waiting : List ValidatorUpdate) (all : List RethBlock) : Prop where
  inside : top ≤ c.blocks.length
  known : ∀ b ∈ all, b ∈ c.blocks
  heights : ∀ i, low < i → i ≤ top → ∃ b ∈ all, b.height = i
  clean : ∀ b ∈ c.blocks, m₀ < b.height → b.height ≤ top → b.offenders = []
  inert : ∀ b ∈ all, b.height ≤ first ∨ Skipped all answers b → Inert b ∧ waiting = []

theorem ReplayFits.inertAt {answers : ℕ → ElAnswer} {low first top m₀ : ℕ}
    {waiting : List ValidatorUpdate} {all : List RethBlock}
    (h : ReplayFits c answers low first top m₀ waiting all) {i : ℕ} (hlow : low < i)
    (hhigh : i ≤ top)
    (hcase : ∀ b ∈ all, b.height = i → b.height ≤ first ∨ Skipped all answers b) :
    InertAt c i ∧ waiting = [] := by
  obtain ⟨b, hb, hi⟩ := h.heights i hlow hhigh
  obtain ⟨hinert, hwaiting⟩ := h.inert b hb (hcase b hb hi)
  refine ⟨fun b' hb' hi' => ?_, hwaiting⟩
  rwa [c.eq_of_height hb' (h.known b hb) (hi'.trans hi.symm)]

namespace Replaying
variable {r : ℕ → ElNode} {answers : ℕ → ElAnswer} {low first top m₀ : ℕ}
  {waiting : List ValidatorUpdate} {y : ℕ} {a : RethApplication} {m : ℕ} {all : List RethBlock}

/-- A block above all that was absorbed is executed. -/
theorem commit_new (h : Replaying c r answers low first top waiting y a m)
    (hfits : ReplayFits c answers low first top m₀ waiting all) (hr : AlwaysExecutes c r)
    (hc : Numbered logsAt base c) (hm₀ : m₀ ≤ m) (hlow : low ≤ y) {b : RethBlock}
    (hb : b ∈ all) (hheight : b.height = y + 1) (hhigh : y + 1 ≤ top)
    (hanswer : answers b.height = .valid) (hnew : m < b.height) :
    Replaying c r answers low first top waiting (y + 1) (a.commit logsAt b .valid).1 b.height := by
  have hmem := hfits.known b hb
  obtain ⟨a', hcommit, hfrontier, hstake, hweights⟩ := commit_valid hc a hmem
  have hoffenders := hfits.clean b hmem (by omega) (by omega)
  have hskipped : ∀ i, m < i → i < b.height → InertAt c i ∧ a.stakeSource.pending = [] := by
    intro i hi₁ hi₂
    have hi : low < i := by
      rcases h.reached with hreached | htop
      · have habove := h.above
        omega
      · omega
    have hskip := hfits.inertAt hi (by omega) fun b' hb' hb'i => .inr
      ⟨hb'i ▸ h.skipped i hi₁ hi (by omega), b, hb, by omega, hanswer⟩
    exact ⟨hskip.1, h.emptied hskip.2⟩
  have hcarries := h.carries.commit hr hc hmem hnew
    (fun b' hb' hb₁ hb₂ => hfits.clean b' hb' (by omega) (by omega)) hskipped hfrontier
    (by rw [hoffenders, hstake]; rfl) hweights
  have hnone : a'.stakeSource.pending = [] := by rw [hstake]; rfl
  rw [hcommit]
  exact
    { carries := hcarries
      known := by omega
      reached := .inl hfrontier.le
      above := by rw [hfrontier]; omega
      place := .inr (by rw [hfrontier]; omega)
      skipped := fun i hi₁ _ hi₂ => by omega
      emptied := fun _ => hnone }

/-- A block that was absorbed before is executed again. -/
theorem commit_again (h : Replaying c r answers low first top waiting y a m)
    (hfits : ReplayFits c answers low first top m₀ waiting all) (hc : Numbered logsAt base c)
    (hlow : low ≤ y) {b : RethBlock} (hb : b ∈ all) (hheight : b.height = y + 1)
    (hold : b.height ≤ m) :
    Replaying c r answers low first top waiting (y + 1) (a.commit logsAt b .valid).1 m := by
  have hmem := hfits.known b hb
  have hknown := h.known
  have hinside := hfits.inside
  obtain ⟨a', hcommit, hfrontier, hstake, hweights⟩ := commit_valid hc a hmem
  have hagain : a.stakeSource.pending = [] ∧
      ∀ i, min a.committed.height (b.height - 1) < i → i ≤ m → InertAt c i := by
    by_cases hbelow : a.committed.height < b.height
    · have hsettled := h.carries.settled (by omega)
      exact ⟨hsettled, fun i hi₁ hi₂ => h.carries.inert i (by omega) hi₂⟩
    · have hfirst : a.committed.height = first := by
        rcases h.place with hfirst | hplace
        · exact hfirst
        · omega
      have hwaiting := (hfits.inert b hb (.inl (by omega))).2
      refine ⟨h.emptied hwaiting, fun i hi₁ hi₂ => ?_⟩
      by_cases hi : i ≤ first
      · exact (hfits.inertAt (by omega) (by omega) fun b' _ hb'i => .inl (by omega)).1
      · exact h.carries.inert i (by omega) hi₂
  have hcarries := h.carries.recommit hc hmem hold (by omega) hagain.1 hagain.2 hfrontier hstake
    hweights
  have hnone : a'.stakeSource.pending = [] := by rw [hstake]; rfl
  rw [hcommit]
  exact
    { carries := hcarries
      known := hknown
      reached := .inl (by rw [hfrontier]; omega)
      above := by rw [hfrontier]; omega
      place := .inr (by rw [hfrontier]; omega)
      skipped := fun i hi₁ _ hi₂ => by omega
      emptied := fun _ => hnone }

theorem commit (h : Replaying c r answers low first top waiting y a m)
    (hfits : ReplayFits c answers low first top m₀ waiting all) (hr : AlwaysExecutes c r)
    (hc : Numbered logsAt base c) (hm₀ : m₀ ≤ m) (hlow : low ≤ y) {b : RethBlock}
    (hb : b ∈ all) (hheight : b.height = y + 1) (hhigh : y + 1 ≤ top) :
    ∃ m', m₀ ≤ m' ∧ Replaying c r answers low first top waiting (y + 1)
      (a.commit logsAt b (answers b.height)).1 m' := by
  by_cases hanswer : answers b.height = .valid
  · by_cases hnew : m < b.height
    · have hcommit := h.commit_new hfits hr hc hm₀ hlow hb hheight hhigh hanswer hnew
      rw [hanswer]
      exact ⟨b.height, by omega, hcommit⟩
    · have hcommit := h.commit_again hfits hc hlow hb hheight (Nat.le_of_not_lt hnew)
      rw [hanswer]
      exact ⟨m, hm₀, hcommit⟩
  · rw [(commit_not_valid logsAt a b hanswer).1]
    refine ⟨m, hm₀, { h with place := h.place.imp_right fun hle => hle.trans (Nat.le_succ y),
                             skipped := fun i hi₁ hi₂ hi₃ => ?_ }⟩
    by_cases hi : i ≤ y
    · exact h.skipped i hi₁ hi₂ hi
    · obtain rfl : i = b.height := by omega
      exact hanswer

theorem replayBlocks (h : Replaying c r answers low first top waiting y a m)
    (hfits : ReplayFits c answers low first top m₀ waiting all) (hr : AlwaysExecutes c r)
    (hc : Numbered logsAt base c) (hm₀ : m₀ ≤ m) (hlow : low ≤ y) {gap : List RethBlock}
    (hgap : ∀ b ∈ gap, b ∈ all)
    (hmap : gap.map RethBlock.height = List.range' (y + 1) gap.length)
    (hlen : y + gap.length ≤ top) :
    ∃ m' y', m₀ ≤ m' ∧ Replaying c r answers low first top waiting y'
      (ElNode.replayBlocks logsAt answers a gap) m' := by
  induction gap generalizing a m y with
  | nil => exact ⟨m, y, hm₀, h⟩
  | cons b gap ih =>
    rw [List.map_cons, List.length_cons, List.range'_succ] at hmap
    obtain ⟨hheight, hrest⟩ := List.cons.inj hmap
    rw [List.length_cons] at hlen
    obtain ⟨m', hm', hcommit⟩ := h.commit hfits hr hc hm₀ hlow (hgap b (List.mem_cons_self ..))
      hheight (by omega)
    rw [ElNode.replayBlocks]
    split
    · next a' result happ =>
      rw [happ] at hcommit
      exact ih hcommit hm' (by omega) (fun b' hb' => hgap b' (List.mem_cons_of_mem _ hb')) hrest
        (by omega)
    · next a' happ =>
      rw [happ] at hcommit
      exact ⟨m', y + 1, hm', hcommit⟩

end Replaying

/-! ### Whole runs -/

/-- A node whose ledger and pending weights are those of the node `r m`. -/
structure Intact (c : CommittedChain) (r : ℕ → ElNode) (n : ElNode) (m : ℕ) : Prop where
  known : m ≤ n.lastCommittedHeight
  inside : n.lastCommittedHeight ≤ c.blocks.length
  retained : ∀ b ∈ n.retained, b ∈ c.blocks
  clean : ∀ b ∈ c.blocks, m < b.height → b.height ≤ n.lastCommittedHeight → b.offenders = []
  reached : n.app.committed.height ≤ m ∨ m = n.lastCommittedHeight
  carries : Carries c r n.app m

variable (genesis genesisRoot c) in
theorem ElNode.restart_app (n : ElNode) (finalized : Option ℕ) :
    let a := (n.restart genesis genesisRoot (finalized.bind c.finalizedHead)).app
    a.committed.height = recovered c finalized ∧ a.stakeSource = .seededFrom genesis ∧
      a.pendingWeights = ∅ := by
  simp only [restart, recovered]
  cases finalized.bind c.finalizedHead with
  | none => exact ⟨rfl, rfl, rfl⟩
  | some head => exact ⟨rfl, rfl, rfl⟩

namespace Intact
variable {r : ℕ → ElNode} {n : ElNode} {m : ℕ}

theorem commitBlock (h : Intact c r n m) (hr : AlwaysExecutes c r) (hc : Numbered logsAt base c)
    {b : RethBlock} (hb : c.blocks[n.lastCommittedHeight]? = some b) {answer : ElAnswer}
    (hanswer : Rebuilt c n (.commit answer)) :
    ∃ m', Intact c r (n.commitBlock logsAt window b answer) m' := by
  have hmem := List.mem_of_getElem? hb
  have hlen := (List.getElem?_eq_some_iff.mp hb).1
  have hheight := c.height _ b hb
  have hknown := h.known
  have hretained := retained_commitBlock logsAt window h.retained hmem answer
  by_cases hvalid : answer = .valid
  · subst hvalid
    obtain ⟨hfrontier, hstake, hlast, -, -, hweights⟩ :=
      commitBlock_valid window hc n hmem
    have hskipped : ∀ i, m < i → i < b.height →
        InertAt c i ∧ n.app.stakeSource.pending = [] := by
      intro i hlow hhigh
      have habove : n.app.committed.height < i := by
        rcases h.reached with hreached | htop <;> omega
      obtain ⟨b', hb', hi⟩ := c.exists_block (show 0 < i by omega) (by omega)
      have hcase := hanswer b' (List.mem_of_getElem? hb') (by omega) (by omega)
      refine ⟨fun b'' hb'' hi' => ?_, hcase.2⟩
      rw [c.eq_of_height hb'' (List.mem_of_getElem? hb') (hi'.trans hi.symm)]
      exact hcase.1
    have hcarries := h.carries.commit hr hc hmem (by omega)
      (fun b' hb' hb₁ hb₂ => h.clean b' hb' hb₁ (by omega)) hskipped hfrontier hstake hweights
    exact ⟨b.height, by omega, by omega, hretained, fun b' _ _ _ => by omega,
      .inl hfrontier.le, hcarries⟩
  · rw [Rebuilt, if_neg hvalid] at hanswer
    have hclean := hanswer.2 b hb
    obtain ⟨happ, hlast, -, -⟩ :=
      commitBlock_not_valid logsAt window n hvalid hclean
    refine ⟨m, by omega, by omega, hretained, fun b' hb' hb₁ hb₂ => ?_, .inl ?_, happ ▸ h.carries⟩
    · exact clean_succ h.clean hmem hheight hclean b' hb' hb₁ (by omega)
    · rw [happ]
      rcases h.reached with hreached | htop
      · exact hreached
      · exact htop ▸ hanswer.1

theorem elCatchupReplay (h : Intact c r n m) (hr : AlwaysExecutes c r)
    (hc : Numbered logsAt base c) {minGap : ℕ} {elHead : Option ℕ} {answers : ℕ → ElAnswer}
    (hanswer : Rebuilt c n (.replay minGap elHead answers)) :
    ∃ m', Intact c r (n.elCatchupReplay logsAt minGap elHead answers) m' := by
  by_cases hvalid : ∃ b ∈ n.replayed minGap elHead, answers b.height = .valid
  · have hinert := hanswer hvalid
    have hheights := n.replayed_heights minGap elHead
    rcases hheights with hnone | hheights
    · rw [hnone] at hvalid
      obtain ⟨b, hb, -⟩ := hvalid
      cases hb
    · have hlen : (n.replayed minGap elHead).length =
          n.lastCommittedHeight - n.elFrontier elHead := by
        rw [← List.length_map RethBlock.height, hheights, List.length_range']
      have hbound : n.elFrontier elHead ≤ n.lastCommittedHeight := by
        obtain ⟨b, hb, -⟩ := hvalid
        have hlow := (ElNode.mem_replayed hb).2
        omega
      have hstart : Replaying c r answers (n.elFrontier elHead) n.app.committed.height
          n.lastCommittedHeight n.app.stakeSource.pending (n.elFrontier elHead) n.app m :=
        { carries := h.carries
          known := h.known
          reached := h.reached
          above := n.elFrontier_le elHead
          place := .inl rfl
          skipped := fun i _ hlow hhigh => by omega
          emptied := id }
      have hfits : ReplayFits c answers (n.elFrontier elHead) n.app.committed.height
          n.lastCommittedHeight m n.app.stakeSource.pending (n.replayed minGap elHead) :=
        { inside := h.inside
          known := fun b hb => h.retained b (ElNode.mem_replayed hb).1
          heights := fun i hlow hhigh => by
            have hi : i ∈ (n.replayed minGap elHead).map RethBlock.height := by
              rw [hheights]
              exact List.mem_range'_1.mpr (by omega)
            exact List.mem_map.mp hi
          clean := h.clean
          inert := hinert }
      obtain ⟨m', y', hm', hend⟩ := hstart.replayBlocks hfits hr hc le_rfl le_rfl
        (fun b hb => hb) (by rw [hlen]; exact hheights) (by omega)
      exact ⟨m', hend.known, h.inside, h.retained,
        fun b hb hlow hhigh => h.clean b hb (by omega) hhigh, hend.reached, hend.carries⟩
  · have hsame := replayBlocks_of_not_valid logsAt
      (fun b hb hanswer => hvalid ⟨b, hb, hanswer⟩) n.app
    rw [ElNode.elCatchupReplay, hsame]
    exact ⟨m, h⟩

/-- A restarted ledger is that of the genesis. -/
theorem restart (h : Intact c r n m) (hr : AlwaysExecutes c r)
    (hstart : (r 0).app = .start genesis genesisRoot) {finalized : Option ℕ}
    (hanswer : Rebuilt c n (.restart finalized)) :
    ∃ m', Intact c r (n.restart genesis genesisRoot (finalized.bind c.finalizedHead)) m' := by
  obtain ⟨hfrontier, hstake, hweights⟩ := n.restart_app genesis genesisRoot c finalized
  have hle : min (recovered c finalized) n.lastCommittedHeight ≤ n.lastCommittedHeight :=
    min_le_right _ _
  have hseeded : AlikeAt 0 (.seededFrom genesis) (r 0).app.stakeSource := by
    rw [hstart]
    exact .refl ..
  have hempty : (r 0).app.pendingWeights = ∅ := by rw [hstart]; rfl
  obtain ⟨halike, hpw⟩ := hr.alikeAt hseeded (Nat.zero_le _) (hle.trans h.inside) (fun _ => rfl)
    (fun b hb _ hhigh => (hanswer b hb (by omega)).1)
    (fun b hb _ hhigh => ⟨(hanswer b hb (by omega)).2 (by omega), .inr hempty⟩)
  refine ⟨min (recovered c finalized) n.lastCommittedHeight, hle, h.inside, h.retained,
    fun b hb _ hhigh => (hanswer b hb hhigh).1, ?_, ?_, ?_, fun i hlow hhigh => ?_,
    fun hlow => ?_⟩
  · rw [hfrontier]
    have hlast : (n.restart genesis genesisRoot
      (finalized.bind c.finalizedHead)).lastCommittedHeight = n.lastCommittedHeight := rfl
    omega
  · rw [hstake]
    exact halike
  · rw [hweights, hpw, hempty]
  · omega
  · omega

/-- A restored snapshot moves the frontier, and nothing else of the application. -/
theorem restoreFromSnapshot (h : Intact c r n m) (hr : AlwaysExecutes c r) {snapshot : Frontier}
    {k : ℕ} {b : RethBlock} (hb : c.blocks[k]? = some b)
    (hanswer : Rebuilt c n (.restore snapshot k)) :
    ∃ m', Intact c r (n.restoreFromSnapshot snapshot b) m' := by
  obtain ⟨hfits, hskipped, hagain, hclean⟩ := hanswer b hb
  have hknown := h.known
  have hinside := h.inside
  have hlen := (List.getElem?_eq_some_iff.mp hb).1
  have hheight := c.height k b hb
  have hmem := List.mem_of_getElem? hb
  have hlow : min n.app.committed.height n.lastCommittedHeight ≤ m := by
    rcases h.reached with hreached | htop <;> omega
  have hinside' : max n.lastCommittedHeight b.height ≤ c.blocks.length := by omega
  have hretained : ∀ b' ∈ n.retained ++ [b], b' ∈ c.blocks := by
    intro b' hb'
    rcases List.mem_append.mp hb' with hold | hnew
    · exact h.retained b' hold
    · rwa [List.mem_singleton.mp hnew]
  have hclean' : ∀ b' ∈ c.blocks, m < b'.height →
      b'.height ≤ max n.lastCommittedHeight b.height → b'.offenders = [] := by
    intro b' hb' hm hhigh
    by_cases hold : b'.height ≤ n.lastCommittedHeight
    · exact h.clean b' hb' hm hold
    · exact hclean b' hb' (by omega) (by omega)
  by_cases hmoved : m < snapshot.height
  · have hpending : n.app.stakeSource.pending = [] := by
      obtain ⟨b', hb', hi⟩ := c.exists_block (i := m + 1) (by omega) (by omega)
      exact (hskipped b' (List.mem_of_getElem? hb') (by omega) (by omega)).2
    obtain ⟨halike, hpw⟩ := hr.alikeAt h.carries.alike hmoved.le (hfits.trans hinside')
      (fun _ => hpending) (fun b' hb' hm hhigh => hclean' b' hb' hm (hhigh.trans hfits))
      fun b' hb' hm hhigh => (hskipped b' hb' hhigh (by omega)).1.imp_right .inl
    exact ⟨snapshot.height,
      { known := hfits
        inside := hinside'
        retained := hretained
        clean := fun b' hb' hm hhigh => hclean' b' hb' (by omega) hhigh
        reached := .inl le_rfl
        carries :=
          { alike := halike
            weights := h.carries.weights.trans hpw.symm
            inert := fun i hi₁ hi₂ => absurd hi₂ (Nat.not_le.mpr hi₁)
            settled := fun hi => absurd hi (Nat.lt_irrefl _) } }⟩
  · have hinert : ∀ i, snapshot.height < i → i ≤ m → InertAt c i := by
      intro i hi₁ hi₂
      by_cases hi : i ≤ n.app.committed.height
      · exact fun b' hb' hb'i => (hagain b' hb' (by omega) (by omega)).1
      · exact h.carries.inert i (by omega) hi₂
    have hsettled : snapshot.height < m → n.app.stakeSource.pending = [] := by
      intro hlt
      by_cases hi : snapshot.height < n.app.committed.height
      · obtain ⟨b', hb', hi'⟩ := c.exists_block (i := snapshot.height + 1) (by omega) (by omega)
        exact (hagain b' (List.mem_of_getElem? hb') (by omega) (by omega)).2
      · exact h.carries.settled (by omega)
    exact ⟨m,
      { known := hknown.trans (le_max_left _ _)
        inside := hinside'
        retained := hretained
        clean := hclean'
        reached := .inl (by show snapshot.height ≤ m; omega)
        carries :=
          { alike := h.carries.alike
            weights := h.carries.weights
            inert := hinert
            settled := hsettled } }⟩

theorem step (h : Intact c r n m) (hr : AlwaysExecutes c r) (hc : Numbered logsAt base c)
    (hstart : (r 0).app = .start genesis genesisRoot) {input : StakeInput}
    (hinput : Rebuilt c n input) :
    ∃ m', Intact c r (stakeStep logsAt window genesis genesisRoot c n input) m' := by
  cases input with
  | commit answer =>
    rw [stakeStep, RootSystem.commitNext]
    split
    · exact ⟨m, h⟩
    · next b hb => exact h.commitBlock hr hc hb hinput
  | replay minGap elHead answers => exact h.elCatchupReplay hr hc hinput
  | restart finalized => exact h.restart hr hstart hinput
  | restore snapshot k =>
    rw [stakeStep]
    split
    · exact ⟨m, h⟩
    · next b hb => exact h.restoreFromSnapshot hr hb hinput

/-- A node that is intact at its last height derives what the other one derives. -/
theorem sameLedger (h : Intact c r n m) (hcaught : n.app.committed.height = n.lastCommittedHeight) :
    SameLedger n (r n.lastCommittedHeight) := by
  have hm : m = n.lastCommittedHeight := by
    have hknown := h.known
    rcases h.reached with hreached | htop <;> omega
  subst hm
  exact
    { alike := h.carries.alike
      weights := h.carries.weights
      updates := fun height logs hle => (h.carries.alike.absorb hle logs).pending }

end Intact

/-- In a run whose restarts and snapshots pass over nothing that concerns a stake, a node whose
execution layer has caught up with its commits has the ledger and the pending weights of one that
never restarted. -/
theorem stake_survives (logsAt : ℕ → List Log) (window : ℕ) (genesis : List (NodeId × ℕ))
    (genesisRoot : Bytes32) (c : CommittedChain) (hc : Numbered logsAt 0 c)
    (inputs : List StakeInput)
    (h : Along (stakeStep logsAt window genesis genesisRoot c) (Rebuilt c)
      (.start (.start genesis genesisRoot)) inputs)
    (hcaught : (run (stakeStep logsAt window genesis genesisRoot c)
        (.start (.start genesis genesisRoot)) inputs).app.committed.height =
      (run (stakeStep logsAt window genesis genesisRoot c)
        (.start (.start genesis genesisRoot)) inputs).lastCommittedHeight) :
    SameLedger
      (run (stakeStep logsAt window genesis genesisRoot c) (.start (.start genesis genesisRoot))
        inputs)
      (alwaysValid logsAt window genesis genesisRoot c
        (run (stakeStep logsAt window genesis genesisRoot c)
          (.start (.start genesis genesisRoot)) inputs).lastCommittedHeight) := by
  have hr := alwaysValid_executes window genesis genesisRoot hc
  have hstart : Intact c (alwaysValid logsAt window genesis genesisRoot c)
      (.start (.start genesis genesisRoot)) 0 :=
    { known := le_rfl
      inside := Nat.zero_le _
      retained := nofun
      clean := fun b _ hlow hhigh => absurd hhigh (Nat.not_le.mpr hlow)
      reached := .inl le_rfl
      carries :=
        { alike := .refl ..
          weights := rfl
          inert := fun i hlow hhigh => absurd hhigh (Nat.not_le.mpr hlow)
          settled := fun hlow => absurd hlow (Nat.lt_irrefl 0) } }
  obtain ⟨m, hm⟩ := h.invariant
    (I := fun n => ∃ m, Intact c (alwaysValid logsAt window genesis genesisRoot c) n m)
    (fun n input hinput ⟨m, hm⟩ => hm.step hr hc rfl hinput) ⟨0, hstart⟩
  exact hm.sameLedger hcaught

end

namespace Sample

def survivingInputs : List StakeInput :=
  [.commit .valid, .restore ⟨2, 12⟩ 1, .commit .valid, .commit .valid, .restart (some 3),
    .replay 1 none fun _ => .valid]

/-- The deposit is in a block that the restarted node replays, the snapshot passes over none. -/
theorem replayed_survives :
    SameLedger
      (run (stakeStep (depositAt 4) 10 [(1, 5)] 10 (chainOf 4 (depositAt 4)))
        (.start (.start [(1, 5)] 10)) survivingInputs)
      (alwaysValid (depositAt 4) 10 [(1, 5)] 10 (chainOf 4 (depositAt 4)) 4) :=
  stake_survives (depositAt 4) 10 [(1, 5)] 10 (chainOf 4 (depositAt 4))
    (depositAt_numbered 4 4 (by decide)) survivingInputs (by decide) (by decide)

def restarted : ElNode :=
  run (stakeStep (depositAt 1) 10 [(1, 5)] 10 (chainOf 3 (depositAt 1)))
    (.start (.start [(1, 5)] 10)) [.commit .valid, .restart (some 1)]

/-- The restarted ledger is that of the genesis, without the deposit of the first block. -/
theorem stake_lost :
    Numbered (depositAt 1) 0 (chainOf 3 (depositAt 1)) ∧
      restarted.app.committed.height = restarted.lastCommittedHeight ∧
      ¬ SameLedger restarted (alwaysValid (depositAt 1) 10 [(1, 5)] 10
        (chainOf 3 (depositAt 1)) 1) := by
  refine ⟨depositAt_numbered 1 3 (by decide), by decide, fun h => ?_⟩
  exact absurd (h.alike.stake 7) (by decide)

end Sample

end Boule
