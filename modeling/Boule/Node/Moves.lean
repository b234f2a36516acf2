import Boule.Node.Ledger

/-! Every input of a machine moves its records. -/
namespace Boule
open HotStuffCore (Emits SameRecords)

section
variable (G : Guard) (P : Primitives)

/-- The step of the core that the event causes, if there is one. -/
def FeedGuarded (order : IterOrder) (frames : List Frame)
    (fed : ConsensusNode × Option Event) : Prop :=
  ∀ event ∈ fed.2, G.push frames fed.1.core (fed.1.core.stepCalls P order event)
    (fed.1.core.step P order event).2

/-- The building of a block, if that is what the interpreter does next. -/
def BuildGuarded (n : ConsensusNode) (built : Option Block) : List Frame → Prop
  | ⟨[], .buildProposal view _ _ :: rest⟩ :: frames => n.isFull = false →
    ∀ block ∈ built, G.build (⟨[], rest⟩ :: frames) n.core.records view block
  | _ => True

/-- What the input makes the node do is guarded. -/
def Guarded (m : Machine) (input : NodeInput) : Prop :=
  ∀ p ∈ m.process,
    match input with
    | .dispatch order validated d =>
      FeedGuarded G P order p.frames (p.node.applyDispatch P validated d)
    | .restore order restored manifest => restored = true →
      G.adopt p.frames m.storage.records manifest ∧
        FeedGuarded G P order p.frames (p.node.restore P m.storage manifest).2
    | .interpret answers => BuildGuarded G p.node answers.built p.frames
    | _ => True

section
variable [∀ frames c calls actions, Decidable (G.push frames c calls actions)]
  [∀ frames memory view block, Decidable (G.build frames memory view block)]
  [∀ frames disk manifest, Decidable (G.adopt frames disk manifest)]

instance (order : IterOrder) (frames : List Frame) (fed : ConsensusNode × Option Event) :
    Decidable (FeedGuarded G P order frames fed) :=
  inferInstanceAs (Decidable (∀ event ∈ fed.2, _))

instance (n : ConsensusNode) (built : Option Block) (frames : List Frame) :
    Decidable (BuildGuarded G n built frames) := by
  unfold BuildGuarded
  split <;> infer_instance

instance (m : Machine) : DecidablePred (Guarded G P m)
  | .dispatch order _ _ => inferInstanceAs (Decidable (∀ p ∈ m.process,
      FeedGuarded G P order p.frames _))
  | .restore order _ _ => inferInstanceAs (Decidable (∀ p ∈ m.process,
      _ → G.adopt _ _ _ ∧ FeedGuarded G P order p.frames _))
  | .interpret _ => inferInstanceAs (Decidable (∀ p ∈ m.process, BuildGuarded G p.node _ p.frames))
  | .boot | .crash | .becomeLeader _ | .blockSyncRetryTick | .blockRangeRequest _ _
  | .blockRangeRetry _ | .releaseStashed =>
    inferInstanceAs (Decidable (∀ p ∈ m.process, True))

end

/-- What an input does to the records: the node works, goes down, or comes up with what is on
disk. -/
inductive Turn (w w' : Logbook) : Prop
  | work (p p' : Process) (running : w.machine.process = some p)
    (running' : w'.machine.process = some p')
    (moves : Running.Moves P G (w.running p) (w'.running p'))
  | down (stopped : w'.machine.process = none)
    (disk : w'.machine.storage.records = w.machine.storage.records)
    (delivered : w'.delivered = w.delivered)
  | up (p : Process) (stopped : w.machine.process = none)
    (running : w'.machine.process = some p)
    (fresh : w'.running p =
      ⟨w.machine.storage.records, w.delivered, w.machine.storage.records, none, []⟩)

end

namespace Logbook
variable {P : Primitives} {V : Verifier} {R : ReconfigPrimitives} {cfg : NodeConfig}
  {G : Guard} {w : Logbook} {input : NodeInput} {m' : Machine} {n n' : ConsensusNode}
  {frames frames' : List Frame}

/-- The logbook that goes with the machine's next state. -/
def next (w : Logbook) (P : Primitives) (input : NodeInput) (m' : Machine) : Logbook where
  machine := m'
  held := w.heldNext P input m'
  delivered := w.delivered ++
    (m'.sent.drop w.machine.sent.length).map fun msg => (msg, w.held.head?.join)

theorem delivered_next_same (hs : m'.sent = w.machine.sent) :
    (w.next P input m').delivered = w.delivered := by
  simp [next, hs]

theorem delivered_next_append {msg : ConsensusMsg} (hs : m'.sent = w.machine.sent ++ [msg]) :
    (w.next P input m').delivered = w.delivered ++ [(msg, w.held.head?.join)] := by
  simp [next, hs]

theorem heldNext_same (hp : w.machine.process = some ⟨n, frames⟩)
    (hp' : m'.process = some ⟨n', frames'⟩) {held : List (Option Locked)}
    (hheld : w.machine.heldAfter w.held input = held) (hlen : held.length = frames'.length) :
    (w.next P input m').held = held := by
  unfold next heldNext
  rw [hp, hp', hheld]
  simp [hlen]

theorem heldNext_push (hp : w.machine.process = some ⟨n, frames⟩)
    (hp' : m'.process = some ⟨n', frames'⟩) {held : List (Option Locked)}
    (hheld : w.machine.heldAfter w.held input = held) (hlen : held.length < frames'.length) :
    (w.next P input m').held =
      (w.machine.stepping P n input).state.locked :: held := by
  unfold next heldNext
  rw [hp, hp', hheld]
  simp [hlen]

theorem running_next {held : List (Option Locked)} (hh : (w.next P input m').held = held)
    (p : Process) :
    (w.next P input m').running p = ⟨m'.storage.records, (w.next P input m').delivered,
      p.node.core.records, p.node.stashedProposal, p.frames.zip held⟩ := by
  unfold running
  rw [hh]
  rfl

theorem Matches.length_held (h : w.Matches) (hp : w.machine.process = some ⟨n, frames⟩) :
    w.held.length = frames.length := by
  have hlen := h.held
  rwa [hp] at hlen

theorem matches_next (h : w.Matches) (new : List ConsensusMsg)
    (hs : m'.sent = w.machine.sent ++ new)
    (hlen : (w.next P input m').held.length = (m'.process.elim [] Process.frames).length) :
    (w.next P input m').Matches := by
  refine ⟨hlen, ?_⟩
  have hnew : m'.sent.drop w.machine.sent.length = new := by
    rw [hs, List.drop_left]
  show (w.delivered ++ (m'.sent.drop w.machine.sent.length).map _).map Prod.fst = m'.sent
  rw [hnew, List.map_append, h.delivered, List.map_map, hs]
  congr 1
  exact List.map_id' new

/-- What an input does, with the list of locks kept up. -/
structure Stepped (G : Guard) (P : Primitives) (w w' : Logbook) : Prop where
  turn : Turn G P w w'
  matched : w'.Matches

theorem stepped_down (h : w.Matches) (hp' : m'.process = none)
    (hd : m'.storage.records = w.machine.storage.records) (hs : m'.sent = w.machine.sent) :
    Stepped G P w (w.next P input m') := by
  refine ⟨.down hp' hd (delivered_next_same hs), ?_⟩
  refine matches_next h [] (by rw [hs, List.append_nil]) ?_
  unfold next heldNext
  rw [hp']
  cases w.machine.process <;> rfl

/-- The node goes on with other lists, of which `held` are the locks. -/
theorem stepped_work (h : w.Matches) (hp : w.machine.process = some ⟨n, frames⟩)
    (hp' : m'.process = some ⟨n', frames'⟩) {held : List (Option Locked)}
    (hh : (w.next P input m').held = held) (hlen : held.length = frames'.length)
    (new : List ConsensusMsg) (hs : m'.sent = w.machine.sent ++ new)
    (hmoves : Running.Moves P G (w.running ⟨n, frames⟩) ⟨m'.storage.records,
      (w.next P input m').delivered, n'.core.records, n'.stashedProposal, frames'.zip held⟩) :
    Stepped G P w (w.next P input m') := by
  constructor
  · refine .work _ _ hp hp' ?_
    rw [running_next hh]
    exact hmoves
  · apply matches_next h new hs
    rw [hh, hp', hlen]
    rfl

/-- Nothing but what the records leave out has changed. -/
theorem stepped_keep (h : w.Matches) (hp : w.machine.process = some ⟨n, frames⟩)
    (hp' : m'.process = some ⟨n', frames⟩)
    (hheld : w.machine.heldAfter w.held input = w.held)
    (hd : m'.storage.records = w.machine.storage.records)
    (hc : n'.core.records = n.core.records) (hst : n'.stashedProposal = n.stashedProposal)
    (hs : m'.sent = w.machine.sent) : Stepped G P w (w.next P input m') := by
  have hlen := h.length_held hp
  refine stepped_work h hp hp' (heldNext_same hp hp' hheld hlen) hlen []
    (by rw [hs, List.append_nil]) ?_
  rw [delivered_next_same hs, hd, hc, hst]
  exact .refl

/-- A list of actions that record nothing is pushed. -/
theorem stepped_quiet (h : w.Matches) (hp : w.machine.process = some ⟨n, frames⟩)
    {actions : List Action} (hp' : m'.process = some ⟨n', ⟨[], actions⟩ :: frames⟩)
    (hheld : w.machine.heldAfter w.held input = w.held)
    (hd : m'.storage.records = w.machine.storage.records)
    (hc : n'.core.records = n.core.records) (hst : n'.stashedProposal = n.stashedProposal)
    (hs : m'.sent = w.machine.sent) (hq : ∀ a ∈ actions, a.isRecord = false) :
    Stepped G P w (w.next P input m') := by
  have hlen := h.length_held hp
  refine stepped_work h hp hp' (heldNext_push hp hp' hheld (by simp [hlen])) (by simp [hlen])
    [] (by rw [hs, List.append_nil]) ?_
  rw [delivered_next_same hs, hd, hc, hst]
  exact .single (.quiet _ _ hq)

/-- The node takes in `fed` and its core steps. -/
theorem stepped_feed (h : w.Matches) (hp : w.machine.process = some ⟨n, frames⟩)
    (hheld : w.machine.heldAfter w.held input = w.held) (storage : Storage) {order : IterOrder}
    {fed : ConsensusNode × Option Event} (hcore : w.machine.stepping P n input = fed.1.core)
    (hg : FeedGuarded G P order frames fed)
    (hpre : Running.Moves P G (w.running ⟨n, frames⟩) ⟨storage.records, w.delivered,
      fed.1.core.records, fed.1.stashedProposal, frames.zip w.held⟩) :
    Stepped G P w
      (w.next P input (Machine.feed P { w.machine with storage := storage } frames order fed)) := by
  have hlen := h.length_held hp
  unfold Machine.feed
  cases he : fed.2 with
  | none =>
    simp only
    generalize hm : Machine.keep { w.machine with storage := storage } fed.1 frames = m'
    have hkept : m'.process = some ⟨fed.1, frames⟩ := by rw [← hm]; rfl
    have hsent : m'.sent = w.machine.sent := by rw [← hm]; rfl
    have hdisk : m'.storage = storage := by rw [← hm]; rfl
    refine stepped_work h hp hkept (heldNext_same hp hkept hheld hlen) hlen []
      (by rw [hsent, List.append_nil]) ?_
    rw [delivered_next_same hsent, hdisk]
    exact hpre
  | some event =>
    simp only
    generalize hm : Machine.stepSafety P { w.machine with storage := storage } fed.1 frames order
      event = m'
    have hpushed : m'.process = some ⟨{ fed.1 with core := (fed.1.core.step P order event).1 },
        ⟨[], (fed.1.core.step P order event).2⟩ :: frames⟩ := by rw [← hm]; rfl
    have hsent : m'.sent = w.machine.sent := by rw [← hm]; rfl
    have hdisk : m'.storage = storage := by rw [← hm]; rfl
    refine stepped_work h hp hpushed (heldNext_push hp hpushed hheld (by simp [hlen]))
      (by simp [hlen]) [] (by rw [hsent, List.append_nil]) ?_
    rw [delivered_next_same hsent, hdisk, hcore]
    refine hpre.tail ?_
    apply Running.Move.push _ (fed.1.core.emits_step P order event) rfl
    have hlists : (frames.zip w.held).map Prod.fst = frames :=
      List.map_fst_zip (Nat.le_of_eq hlen.symm)
    unfold Running.lists
    rw [hlists]
    exact hg event he

/-- The lists that are left after a round of the interpreter, and the lock at the top one. -/
theorem zip_held (h : w.Matches) {frame : Frame}
    (hp : w.machine.process = some ⟨n, frame :: frames⟩) :
    ∃ l held, w.held = l :: held ∧ held.length = frames.length := by
  have hlen := h.length_held hp
  cases hh : w.held with
  | nil =>
    rw [hh] at hlen
    cases hlen
  | cons l held =>
    rw [hh] at hlen
    exact ⟨l, held, rfl, Nat.succ.inj hlen⟩

theorem heldAfter_interpret {answers : Answers} {buf : List StateUpdate} {action : Action}
    {rest : List Action} {l : Option Locked} {held : List (Option Locked)}
    (hp : w.machine.process = some ⟨n, ⟨buf, action :: rest⟩ :: frames⟩)
    (ha : ∀ u, action ≠ .persist u) :
    w.machine.heldAfter (l :: held) (.interpret answers) = l :: held := by
  unfold Machine.heldAfter
  rw [hp]
  cases action with
  | persist u => exact absurd rfl (ha u)
  | _ => rfl

/-- The top list's next action has been carried out, with the messages `new` sent. -/
theorem stepped_advance (h : w.Matches) {answers : Answers} {action : Action}
    {rest : List Action} (hp : w.machine.process = some ⟨n, ⟨[], action :: rest⟩ :: frames⟩)
    (ha : ∀ u, action ≠ .persist u) (hp' : m'.process = some ⟨n', ⟨[], rest⟩ :: frames⟩)
    (new : List ConsensusMsg) (hs : m'.sent = w.machine.sent ++ new)
    (hd : m'.storage.records = w.machine.storage.records)
    (hc : n'.core.records = n.core.records)
    (hmove : ∀ (s : Running) (l : Option Locked) (tail : List (Frame × Option Locked)),
      s.frames = (⟨[], action :: rest⟩, l) :: tail → s.stash = n.stashedProposal →
      Running.Move P G s { s with
        delivered := s.delivered ++ new.map fun msg => (msg, l)
        stash := n'.stashedProposal
        frames := (⟨[], rest⟩, l) :: tail }) :
    Stepped G P w (w.next P (.interpret answers) m') := by
  obtain ⟨l, held, hheld, hlen⟩ := zip_held h hp
  have hafter : w.machine.heldAfter w.held (.interpret answers) = l :: held := by
    rw [hheld]
    exact heldAfter_interpret hp ha
  have hlength : (l :: held).length = (Frame.mk [] rest :: frames).length := by simp [hlen]
  refine stepped_work h hp hp' (heldNext_same hp hp' hafter hlength) hlength new hs ?_
  have hdelivered : (w.next P (.interpret answers) m').delivered =
      w.delivered ++ new.map fun msg => (msg, l) := by
    show w.delivered ++ (m'.sent.drop w.machine.sent.length).map _ = _
    rw [hs, List.drop_left, hheld]
    rfl
  have hrunning : w.running ⟨n, ⟨[], action :: rest⟩ :: frames⟩ = ⟨w.machine.storage.records,
      w.delivered, n.core.records, n.stashedProposal,
      (⟨[], action :: rest⟩, l) :: frames.zip held⟩ := by
    unfold running
    rw [hheld]
    rfl
  rw [hdelivered, hd, hc, hrunning]
  exact .single (hmove _ _ _ rfl rfl)

/-- An action that nobody hears of. -/
theorem stepped_skip (h : w.Matches) {answers : Answers} {action : Action}
    {rest : List Action} (hp : w.machine.process = some ⟨n, ⟨[], action :: rest⟩ :: frames⟩)
    (ha : ∀ u, action ≠ .persist u) (hp' : m'.process = some ⟨n', ⟨[], rest⟩ :: frames⟩)
    (hs : m'.sent = w.machine.sent) (hd : m'.storage.records = w.machine.storage.records)
    (hc : n'.core.records = n.core.records) (hst : n'.stashedProposal = n.stashedProposal) :
    Stepped G P w (w.next P (.interpret answers) m') := by
  refine stepped_advance h hp ha hp' [] (by rw [hs, List.append_nil]) hd hc ?_
  intro s l tail htop hstash
  rw [hst, ← hstash, List.map_nil, List.append_nil]
  exact .skip s htop ha

/-- A message leaves as it is, or as a proposal with a new stamp. -/
theorem stepped_deliver (h : w.Matches) {answers : Answers} {msg msg' : ConsensusMsg}
    {rest : List Action}
    (hp : w.machine.process = some ⟨n, ⟨[], .broadcast msg :: rest⟩ :: frames⟩)
    (hp' : m'.process = some ⟨n, ⟨[], rest⟩ :: frames⟩)
    (hs : m'.sent = w.machine.sent ++ [msg'])
    (hd : m'.storage.records = w.machine.storage.records)
    (hsame : msg' = msg ∨ ∃ p p', msg = .proposal p ∧ msg' = .proposal p' ∧
      p'.block.header.view = p.block.header.view) :
    Stepped G P w (w.next P (.interpret answers) m') := by
  refine stepped_advance h hp (fun u => Action.noConfusion) hp' [msg'] hs hd rfl ?_
  intro s l tail htop hstash
  rw [← hstash]
  exact .deliver s htop hsame

/-- A block is built, and its proposal is to be recorded and sent. -/
theorem stepped_build (h : w.Matches) {answers : Answers} {view : ℕ} {highQc : QuorumCertificate}
    {parent block : Block} {rest : List Action}
    (hp : w.machine.process = some ⟨n, ⟨[], .buildProposal view highQc parent :: rest⟩ :: frames⟩)
    (hp' : m'.process = some ⟨{ n with core := (n.core.proposalBuilt view block highQc).1 },
      ⟨[], (n.core.proposalBuilt view block highQc).2⟩ :: ⟨[], rest⟩ :: frames⟩)
    (hs : m'.sent = w.machine.sent) (hd : m'.storage = w.machine.storage)
    (hguard : G.build (⟨[], rest⟩ :: frames) n.core.records view block) :
    Stepped G P w (w.next P (.interpret answers) m') := by
  have hbuild : ∀ u, Action.buildProposal view highQc parent ≠ .persist u :=
    fun u => Action.noConfusion
  obtain ⟨l, held, hheld, hlen⟩ := zip_held h hp
  have hafter : w.machine.heldAfter w.held (.interpret answers) = l :: held := by
    rw [hheld]
    exact heldAfter_interpret hp hbuild
  have hrunning : w.running ⟨n, ⟨[], .buildProposal view highQc parent :: rest⟩ :: frames⟩ =
      ⟨w.machine.storage.records, w.delivered, n.core.records, n.stashedProposal,
        (⟨[], .buildProposal view highQc parent :: rest⟩, l) :: frames.zip held⟩ := by
    unfold running
    rw [hheld]
    rfl
  refine stepped_work h hp hp' (heldNext_push hp hp' hafter (by simp [hlen])) (by simp [hlen])
    [] (by rw [hs, List.append_nil]) ?_
  rw [delivered_next_same hs, hrunning, hd]
  refine Relation.ReflTransGen.tail (.single (.skip _ rfl hbuild)) ?_
  apply Running.Move.build
  have hlists : (frames.zip held).map Prod.fst = frames :=
    List.map_fst_zip (Nat.le_of_eq hlen.symm)
  unfold Running.lists
  rw [List.map_cons, hlists]
  exact hguard

theorem stepped_handleAction (h : w.Matches) {answers : Answers} {action : Action}
    {rest : List Action} (hp : w.machine.process = some ⟨n, ⟨[], action :: rest⟩ :: frames⟩)
    (ha : ∀ u, action ≠ .persist u) (hg : Guarded G P w.machine (.interpret answers)) :
    Stepped G P w (w.next P (.interpret answers)
      (w.machine.handleAction P V R cfg n (⟨[], rest⟩ :: frames) answers action)) := by
  cases action with
  | broadcast msg =>
    cases msg with
    | proposal p =>
      simp only [Machine.handleAction]
      split_ifs
      · exact stepped_skip h hp ha rfl rfl rfl rfl rfl
      · refine stepped_advance h hp ha rfl [] (List.append_nil _).symm rfl rfl ?_
        intro s l tail htop _
        rw [List.map_nil, List.append_nil]
        exact .hold s htop rfl
      · exact stepped_deliver h hp rfl rfl rfl (.inr ⟨p, _, rfl, rfl, rfl⟩)
    | vote vote =>
      simp only [Machine.handleAction]
      split_ifs
      · exact stepped_skip h hp ha rfl rfl rfl rfl rfl
      · exact stepped_skip h hp ha rfl rfl rfl rfl rfl
      · exact stepped_deliver h hp rfl rfl rfl (.inl rfl)
    | newView nv =>
      simp only [Machine.handleAction]
      split_ifs
      · exact stepped_skip h hp ha rfl rfl rfl rfl rfl
      · exact stepped_deliver h hp rfl rfl rfl (.inl rfl)
  | persist u => exact absurd rfl (ha u)
  | commit block =>
    simp only [Machine.handleAction]
    cases hc : n.applyCommit P R cfg w.machine.storage block with
    | none => exact stepped_down h rfl rfl rfl
    | some r =>
      obtain ⟨hd, hcore, hst⟩ := ConsensusNode.applyCommit_records hc
      exact stepped_skip h hp ha rfl rfl hd hcore.records_eq hst
  | buildProposal view highQc parent =>
    simp only [Machine.handleAction]
    cases hb : (if n.isFull = true then none else answers.built) with
    | none => exact stepped_skip h hp ha rfl rfl rfl rfl rfl
    | some block =>
      have hbuild : n.isFull = false ∧ block ∈ answers.built := by
        split_ifs at hb with hfull
        exact ⟨Bool.eq_false_iff.mpr hfull, hb⟩
      have hguard := hg _ hp hbuild.1 block hbuild.2
      exact stepped_build h hp rfl rfl rfl hguard
  | requestBlock hash peer expectedHeight reason => exact stepped_skip h hp ha rfl rfl rfl rfl rfl
  | equivocationEvidence voter view a b => exact stepped_skip h hp ha rfl rfl rfl rfl rfl
  | proposalEquivocationEvidence leader view a b =>
    exact stepped_skip h hp ha rfl rfl rfl rfl rfl

/-- An update joins the buffer of the top list. -/
theorem stepped_buffer (h : w.Matches) {answers : Answers} {buf : List StateUpdate}
    {u : StateUpdate} {rest : List Action}
    (hp : w.machine.process = some ⟨n, ⟨buf, .persist u :: rest⟩ :: frames⟩)
    (hp' : m'.process = some ⟨n, ⟨buf ++ [u], rest⟩ :: frames⟩)
    (hs : m'.sent = w.machine.sent) (hd : m'.storage = w.machine.storage) :
    Stepped G P w (w.next P (.interpret answers) m') := by
  obtain ⟨l, held, hheld, hlen⟩ := zip_held h hp
  have hafter : w.machine.heldAfter w.held (.interpret answers) = u.lockAfter l :: held := by
    unfold Machine.heldAfter
    rw [hp, hheld]
    rfl
  have hlength : (u.lockAfter l :: held).length =
      (Frame.mk (buf ++ [u]) rest :: frames).length := by simp [hlen]
  have hrunning : w.running ⟨n, ⟨buf, .persist u :: rest⟩ :: frames⟩ =
      ⟨w.machine.storage.records, w.delivered, n.core.records, n.stashedProposal,
        (⟨buf, .persist u :: rest⟩, l) :: frames.zip held⟩ := by
    unfold running
    rw [hheld]
    rfl
  refine stepped_work h hp hp' (heldNext_same hp hp' hafter hlength) hlength []
    (by rw [hs, List.append_nil]) ?_
  rw [delivered_next_same hs, hrunning, hd]
  exact .single (.buffer _ rfl)

theorem stepped_interpret (h : w.Matches) {answers : Answers}
    (hp : w.machine.process = some ⟨n, frames⟩)
    (hg : Guarded G P w.machine (.interpret answers)) :
    Stepped G P w (w.next P (.interpret answers)
      (w.machine.interpret P V R cfg n frames answers)) := by
  cases frames with
  | nil =>
    refine stepped_keep h hp hp ?_ rfl rfl rfl rfl
    unfold Machine.heldAfter
    rw [hp]
    rfl
  | cons frame frames =>
    obtain ⟨buf, rest⟩ := frame
    obtain ⟨l, held, hheld, hlen⟩ := zip_held h hp
    have hrunning : w.running ⟨n, ⟨buf, rest⟩ :: frames⟩ = ⟨w.machine.storage.records,
        w.delivered, n.core.records, n.stashedProposal, (⟨buf, rest⟩, l) :: frames.zip held⟩ := by
      unfold running
      rw [hheld]
      rfl
    -- the buffered updates are written before anything but another update
    have hflush : ∀ (held' : List (Option Locked)) {frames' : List Frame} {m' : Machine},
        m'.process = some ⟨n, frames'⟩ → m'.sent = w.machine.sent →
        m'.storage = w.machine.storage.persistUpdates n.core.state.pendingBlocks buf →
        w.machine.heldAfter w.held (.interpret answers) = held' →
        held'.length = frames'.length →
        Running.Moves P G ⟨buf.foldl Records.put w.machine.storage.records, w.delivered,
          n.core.records, n.stashedProposal, (⟨[], rest⟩, l) :: frames.zip held⟩
          ⟨buf.foldl Records.put w.machine.storage.records, w.delivered, n.core.records,
            n.stashedProposal, frames'.zip held'⟩ →
        Stepped G P w (w.next P (.interpret answers) m') := by
      intro held' frames' m' hp' hs hd hafter hlength hmoves
      refine stepped_work h hp hp' (heldNext_same hp hp' hafter hlength) hlength []
        (by rw [hs, List.append_nil]) ?_
      rw [delivered_next_same hs, hd, Storage.records_persistUpdates, hrunning]
      exact (Relation.ReflTransGen.single (Running.Move.flush _ rfl)).trans hmoves
    have hother : ∀ {action : Action} {rest' : List Action}, rest = action :: rest' →
        (∀ u, action ≠ .persist u) → Stepped G P w (w.next P (.interpret answers)
          (if buf.isEmpty then
            w.machine.handleAction P V R cfg n (⟨[], rest'⟩ :: frames) answers action
          else Machine.keep { w.machine with
              storage := w.machine.storage.persistUpdates n.core.state.pendingBlocks buf } n
            (⟨[], action :: rest'⟩ :: frames))) := by
      intro action rest' hrest ha
      rw [hrest] at hp
      split_ifs with hb
      · rw [List.isEmpty_iff.mp hb] at hp
        exact stepped_handleAction h hp ha hg
      · refine hflush (l :: held) rfl rfl rfl ?_ (by simp [hlen]) ?_
        · rw [hheld]
          exact heldAfter_interpret hp ha
        · rw [hrest]
          exact .refl
    cases rest with
    | nil =>
      refine hflush held rfl rfl rfl ?_ hlen (.single (.finish _ rfl))
      unfold Machine.heldAfter
      rw [hp, hheld]
      rfl
    | cons action rest =>
      cases action with
      | persist u =>
        exact stepped_buffer h hp rfl rfl rfl
      | _ => exact hother rfl fun u => Action.noConfusion

/-- The stashed proposal leaves. -/
theorem stepped_release (h : w.Matches) {p : Proposal}
    (hp : w.machine.process = some ⟨n, frames⟩) (hst : n.stashedProposal = some p)
    (hheld : w.machine.heldAfter w.held input = w.held)
    (hp' : m'.process = some ⟨{ n with stashedProposal := none }, frames⟩)
    (hs : m'.sent = w.machine.sent ++ [.proposal p])
    (hd : m'.storage = w.machine.storage) : Stepped G P w (w.next P input m') := by
  have hlen := h.length_held hp
  refine stepped_work h hp hp' (heldNext_same hp hp' hheld hlen) hlen [.proposal p] hs ?_
  rw [delivered_next_append hs, hd]
  exact .single (.release (w.running ⟨n, frames⟩) _ hst)

theorem stepped_boot (h : w.Matches) (hp : w.machine.process = none) :
    Stepped G P w (w.next P .boot (w.machine.boot P cfg)) := by
  have hdown : Stepped G P w (w.next P .boot { w.machine with process := none }) :=
    stepped_down h rfl rfl rfl
  unfold Machine.boot
  cases hr : ConsensusNode.recover P cfg w.machine.storage with
  | none => exact hdown
  | some n =>
    simp only
    split_ifs
    · obtain ⟨hrecords, hstash⟩ := ConsensusNode.recover_records hr
      generalize hm : { w.machine with process := some (Process.mk n []) } = m'
      have hp' : m'.process = some ⟨n, []⟩ := by rw [← hm]
      have hs : m'.sent = w.machine.sent := by rw [← hm]
      have hd : m'.storage = w.machine.storage := by rw [← hm]
      have hheld : (w.next P .boot m').held = [] := by
        unfold next heldNext
        rw [hp]
      refine ⟨.up ⟨n, []⟩ hp hp' ?_, matches_next h [] (by rw [hs, List.append_nil]) ?_⟩
      · rw [running_next hheld, delivered_next_same hs, hrecords, hstash, hd]
        rfl
      · rw [hheld, hp']
        rfl
    · exact hdown

/-- Every guarded input is a turn of the logbook. -/
theorem stepped_step (h : w.Matches) (hg : Guarded G P w.machine input) :
    Stepped G P w (w.step P V R cfg input) := by
  show Stepped G P w (w.next P input (w.machine.step P V R cfg input))
  unfold Machine.step
  cases hp : w.machine.process with
  | none =>
    cases input with
    | boot => exact stepped_boot h hp
    | crash => exact stepped_down h rfl rfl rfl
    | _ => exact stepped_down h hp rfl rfl
  | some p =>
    obtain ⟨n, frames⟩ := p
    have hk := hg ⟨n, frames⟩ hp
    cases input with
    | boot => exact stepped_keep h hp hp rfl rfl rfl rfl rfl
    | crash => exact stepped_down h rfl rfl rfl
    | dispatch order validated d =>
      obtain ⟨hsame, hst⟩ := n.applyDispatch_records P validated d
      refine stepped_feed h hp rfl w.machine.storage rfl hk ?_
      rw [hsame.records_eq, hst]
      exact .refl
    | becomeLeader view =>
      simp only
      split_ifs
      · exact stepped_keep h hp hp rfl rfl rfl rfl rfl
      · exact stepped_quiet h hp rfl rfl rfl rfl rfl rfl
          (n.core.isRecord_buildProposalAtView view)
    | blockSyncRetryTick =>
      obtain ⟨hsame, hquiet⟩ := n.core.syncs_stepBlockSyncRetryTick
      exact stepped_quiet h hp rfl rfl rfl hsame.records_eq rfl rfl hquiet
    | blockRangeRequest proposer proposalHeight =>
      have hcore := n.core_maybeEmitBlockRangeRequest proposer proposalHeight
      refine stepped_keep h hp rfl rfl rfl (by rw [hcore]) ?_ rfl
      unfold ConsensusNode.maybeEmitBlockRangeRequest
      simp only
      split_ifs <;> rfl
    | blockRangeRetry due => exact stepped_keep h hp rfl rfl rfl rfl rfl rfl
    | restore order restored manifest =>
      simp only
      split_ifs with hr
      · obtain ⟨hadopt, hfeed⟩ := hk hr
        obtain ⟨hd, hc, hst⟩ := n.restore_records P w.machine.storage manifest
        refine stepped_feed h hp rfl _ rfl hfeed ?_
        rw [hd, hc, hst]
        refine .single ?_
        have hlists : (frames.zip w.held).map Prod.fst = frames :=
          List.map_fst_zip (Nat.le_of_eq (h.length_held hp).symm)
        refine Running.Move.adopt (w.running ⟨n, frames⟩) ?_
        unfold Running.lists running
        rw [hlists]
        exact hadopt
      · exact stepped_keep h hp hp rfl rfl rfl rfl rfl
    | interpret answers => exact stepped_interpret h hp hg
    | releaseStashed =>
      simp only [Machine.releaseStashed]
      cases hst : n.stashedProposal with
      | none => exact stepped_keep h hp hp rfl rfl rfl rfl rfl
      | some p =>
        exact stepped_release h hp hst rfl rfl rfl rfl

end Logbook

end Boule
