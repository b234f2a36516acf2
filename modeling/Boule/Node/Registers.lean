import Boule.Lib.WriteAhead
import Boule.Node.Moves
import Mathlib.Order.WithBot

/-! The records of a node as levels that are written ahead. -/
namespace Boule
open HotStuffCore (Emits SameRecords)
open HotStuffState WriteAhead

inductive RecordKind where
  | voted
  | locked
  | highQc
  | proposed
  deriving DecidableEq

def StateUpdate.kind : StateUpdate → RecordKind
  | .votedInView _ => .voted
  | .locked _ => .locked
  | .highQc _ => .highQc
  | .proposedInView _ => .proposed

/-- The records that a message promises. -/
def ConsensusMsg.relies : ConsensusMsg → List RecordKind
  | .vote _ => [.voted, .locked]
  | .newView _ => [.highQc]
  | .proposal _ => [.proposed]

def Action.update? : Action → Option StateUpdate
  | .persist u => some u
  | _ => none

/-- The records that an action writes or promises. -/
def Action.relies : Action → List RecordKind
  | .persist u => [u.kind]
  | .broadcast msg => msg.relies
  | _ => []

/-- The records of which the lists have an update that is not written yet. -/
def unwrittenKinds (frames : List Frame) : List RecordKind :=
  frames.flatMap fun f => (f.persistBuf ++ f.rest.filterMap Action.update?).map StateUpdate.kind

/-- No list has an unwritten update of a record that the actions write or promise. -/
def Settled (frames : List Frame) (actions : List Action) : Prop :=
  ∀ a ∈ actions, ∀ k ∈ a.relies, k ∉ unwrittenKinds frames

instance (frames : List Frame) (actions : List Action) : Decidable (Settled frames actions) :=
  inferInstanceAs (Decidable (∀ a ∈ actions, _))

/-- One record, with the level that each message needs of it. -/
structure Register (α : Type) where
  kind : RecordKind
  level : StateUpdate → Option α
  need : Option Locked → ConsensusMsg → Option α
  read : Records → α
  read_put : ∀ r u, read (r.put u) = (level u).getD (read r)
  level_kind : ∀ {u a}, level u = some a → u.kind = kind
  need_relies : ∀ {held msg a}, need held msg = some a → kind ∈ msg.relies
  need_view : ∀ {held held' p p'}, p'.block.header.view = p.block.header.view →
    need held' (.proposal p') = need held (.proposal p)

namespace Register
variable {α : Type} (r : Register α)

/-- The entries of a list whose first action finds the lock `held`. -/
def entries : Option Locked → List Action → List (Entry α)
  | _, [] => []
  | held, .persist u :: rest =>
    ((r.level u).map Entry.write).toList ++ entries (u.lockAfter held) rest
  | held, .broadcast msg :: rest => ((r.need held msg).map Entry.send).toList ++ entries held rest
  | held, .commit _ :: rest => entries held rest
  | held, .requestBlock _ _ _ _ :: rest => entries held rest
  | held, .equivocationEvidence _ _ _ _ :: rest => entries held rest
  | held, .proposalEquivocationEvidence _ _ _ _ :: rest => entries held rest
  | held, .buildProposal _ _ _ :: rest => entries held rest

theorem entries_persist (held : Option Locked) (u : StateUpdate) (rest : List Action) :
    r.entries held (.persist u :: rest) =
      ((r.level u).map Entry.write).toList ++ r.entries (u.lockAfter held) rest := rfl

theorem entries_broadcast (held : Option Locked) (msg : ConsensusMsg) (rest : List Action) :
    r.entries held (.broadcast msg :: rest) =
      ((r.need held msg).map Entry.send).toList ++ r.entries held rest := rfl

def task (f : Frame × Option Locked) : WriteAhead.Task α :=
  ⟨f.1.persistBuf.filterMap r.level, r.entries f.2 f.1.rest⟩

/-! ### The task of a frame, by its next action -/

theorem task_send {buf : List StateUpdate} {msg : ConsensusMsg} {rest : List Action}
    {held : Option Locked} {need : α} (hn : r.need held msg = some need) :
    r.task (⟨buf, .broadcast msg :: rest⟩, held) =
      ⟨buf.filterMap r.level, .send need :: r.entries held rest⟩ := by
  unfold task
  rw [entries_broadcast, hn]
  rfl

theorem task_send_of_none {buf : List StateUpdate} {msg : ConsensusMsg} {rest : List Action}
    {held : Option Locked} (hn : r.need held msg = none) :
    r.task (⟨buf, .broadcast msg :: rest⟩, held) = r.task (⟨buf, rest⟩, held) := by
  unfold task
  rw [entries_broadcast, hn]
  rfl

theorem task_write {buf : List StateUpdate} {u : StateUpdate} {rest : List Action}
    {held : Option Locked} {l : α} (hl : r.level u = some l) :
    r.task (⟨buf, .persist u :: rest⟩, held) =
      ⟨buf.filterMap r.level, .write l :: r.entries (u.lockAfter held) rest⟩ := by
  unfold task
  rw [entries_persist, hl]
  rfl

theorem task_buffered (buf : List StateUpdate) (u : StateUpdate) (rest : List Action)
    (held : Option Locked) : r.task (⟨buf ++ [u], rest⟩, held) =
      ⟨buf.filterMap r.level ++ (r.level u).toList, r.entries held rest⟩ := by
  unfold task
  rw [List.filterMap_append, List.filterMap_cons]
  cases r.level u <;> rfl

/-- An update of another record is no entry. -/
theorem task_write_of_none {buf : List StateUpdate} {u : StateUpdate} {rest : List Action}
    {held : Option Locked} (hl : r.level u = none) :
    r.task (⟨buf, .persist u :: rest⟩, held) =
      r.task (⟨buf ++ [u], rest⟩, u.lockAfter held) := by
  rw [task_buffered, hl, Option.toList_none, List.append_nil]
  unfold task
  rw [entries_persist, hl]
  rfl

theorem entries_append (held : Option Locked) (actions actions' : List Action) :
    r.entries held (actions ++ actions') = r.entries held actions ++
      r.entries ((actions.filterMap Action.update?).foldl StateUpdate.lockAfter held) actions' := by
  induction actions generalizing held with
  | nil => rfl
  | cons a actions ih =>
    cases a with
    | persist u =>
      rw [List.cons_append, entries_persist, entries_persist, ih, List.append_assoc]
      rfl
    | broadcast msg =>
      rw [List.cons_append, entries_broadcast, entries_broadcast, ih, List.append_assoc]
      rfl
    | _ => exact ih held

theorem entries_quiet {actions : List Action} (h : ∀ a ∈ actions, a.isRecord = false)
    (held : Option Locked) : r.entries held actions = [] := by
  induction actions with
  | nil => rfl
  | cons a actions ih =>
    have hrest := ih fun b hb => h b (List.mem_cons_of_mem _ hb)
    have ha := h a (List.mem_cons_self ..)
    cases a with
    | persist u => cases ha
    | broadcast msg => cases ha
    | _ => exact hrest

theorem writes_entries (held : Option Locked) (actions : List Action) :
    writes (r.entries held actions) = (actions.filterMap Action.update?).filterMap r.level := by
  have happend : ∀ es es' : List (Entry α), writes (es ++ es') = writes es ++ writes es' :=
    fun _ _ => List.filterMap_append
  induction actions generalizing held with
  | nil => rfl
  | cons a actions ih =>
    cases a with
    | persist u =>
      rw [entries_persist, happend, ih]
      show _ = (u :: actions.filterMap Action.update?).filterMap r.level
      rw [List.filterMap_cons]
      cases r.level u <;> rfl
    | broadcast msg =>
      rw [entries_broadcast, happend, ih]
      cases r.need held msg <;> rfl
    | _ => exact ih held

/-- A list that neither writes nor promises the record has no entries. -/
theorem exists_relies_of_entries {held : Option Locked} {actions : List Action}
    (h : r.entries held actions ≠ []) : ∃ a ∈ actions, r.kind ∈ a.relies := by
  by_contra hnone
  push Not at hnone
  apply h
  induction actions generalizing held with
  | nil => rfl
  | cons a actions ih =>
    have ha := hnone a (List.mem_cons_self ..)
    have hrest : ∀ held, r.entries held actions = [] := fun held => by
      by_contra hne
      exact hne (ih hne fun b hb => hnone b (List.mem_cons_of_mem _ hb))
    cases a with
    | persist u =>
      rw [entries_persist, hrest, List.append_nil]
      cases hl : r.level u with
      | none => rfl
      | some l => exact absurd (List.mem_singleton.mpr (r.level_kind hl).symm) ha
    | broadcast msg =>
      rw [entries_broadcast, hrest, List.append_nil]
      cases hn : r.need held msg with
      | none => rfl
      | some l => exact absurd (r.need_relies hn) ha
    | _ => exact hrest held

/-- While no update of the record is unwritten, no level is. -/
theorem unwritten_eq_nil {frames : List (Frame × Option Locked)}
    (h : r.kind ∉ unwrittenKinds (frames.map Prod.fst)) : unwritten (frames.map r.task) = [] := by
  unfold unwritten
  rw [List.flatMap_map]
  refine List.flatMap_eq_nil_iff.mpr fun f hf => ?_
  have hkinds : r.kind ∉ (f.1.persistBuf ++ f.1.rest.filterMap Action.update?).map
      StateUpdate.kind := fun hk =>
    h (List.mem_flatMap.mpr ⟨f.1, List.mem_map_of_mem hf, hk⟩)
  have hnone : (f.1.persistBuf ++ f.1.rest.filterMap Action.update?).filterMap r.level = [] := by
    refine List.filterMap_eq_nil_iff.mpr fun u hu => ?_
    cases hl : r.level u with
    | none => rfl
    | some l => exact absurd (List.mem_map.mpr ⟨u, hu, r.level_kind hl⟩) hkinds
  rw [List.filterMap_append] at hnone
  unfold task WriteAhead.Task.unwritten
  rw [writes_entries]
  exact hnone

theorem read_foldl_put (records : Records) (updates : List StateUpdate) :
    r.read (updates.foldl Records.put records) =
      (updates.filterMap r.level).getLastD (r.read records) := by
  induction updates generalizing records with
  | nil => rfl
  | cons u us ih =>
    rw [List.foldl_cons, ih, r.read_put, List.filterMap_cons]
    cases r.level u with
    | none => rfl
    | some l => exact List.getLastD_cons.symm

/-! ### A record of a running node -/

variable [Preorder α]

/-- What has left the node needs no more than what is on disk, and the levels are written
ahead. -/
structure Kept (s : Running) : Prop where
  delivered : ∀ e ∈ s.delivered, ∀ a ∈ r.need e.2 e.1, a ≤ r.read s.disk
  stash : ∀ p ∈ s.stash, ∀ a ∈ r.need none (.proposal p), a ≤ r.read s.disk
  sound : Sound (r.read s.disk) (r.read s.memory) (s.frames.map r.task)

/-- The actions raise the record, and no earlier update of it is unwritten. -/
structure RaisedBy (frames : List Frame) (records records' : Records) (held : Option Locked)
    (actions : List Action) : Prop where
  rises : Rises (r.read records) (r.read records') (r.entries held actions)
  settled : r.entries held actions ≠ [] → r.kind ∉ unwrittenKinds frames

/-- Whatever the guard lets happen raises the record. -/
structure Obeys (P : Primitives) (G : Guard) : Prop where
  push : ∀ {frames c calls actions c'}, Emits P c calls actions c' →
    G.push frames c calls actions → r.RaisedBy frames c.records c'.records c.state.locked actions
  build : ∀ {frames memory view block qc held}, G.build frames memory view block →
    r.RaisedBy frames memory { memory with proposedInView := view } held
      [.persist (.proposedInView view), .broadcast (.proposal ⟨block, qc⟩)]
  adopt : ∀ {frames disk m}, G.adopt frames disk m →
    (∀ records votedView, r.read (records.adopt P m votedView) = r.read records) ∨
      r.kind ∉ unwrittenKinds frames ∧ r.read disk ≤ r.read (disk.adopt P m m.view) ∧
      ∀ memory : Records,
        r.read (disk.adopt P m m.view) ≤
          r.read (memory.adopt P m (max memory.votedView m.view)) ∧
        (r.read (memory.adopt P m (max memory.votedView m.view)) ≤
            r.read (disk.adopt P m m.view) ∨
          r.read (memory.adopt P m (max memory.votedView m.view)) ≤ r.read memory)

namespace Kept
variable {r} {P : Primitives} {G : Guard} {s s' : Running}

/-- The disk has a level at least as high, and nothing new has left. -/
theorem of_disk (h : r.Kept s) (hd : s'.delivered = s.delivered) (hst : s'.stash = s.stash)
    (hle : r.read s.disk ≤ r.read s'.disk)
    (hs : Sound (r.read s'.disk) (r.read s'.memory) (s'.frames.map r.task)) : r.Kept s' where
  delivered := by
    rw [hd]
    exact fun e he a ha => le_trans (h.delivered e he a ha) hle
  stash := by
    rw [hst]
    exact fun p hp a ha => le_trans (h.stash p hp a ha) hle
  sound := hs

theorem issue (h : r.Kept s) {memory : Records} {actions : List Action} {held : Option Locked}
    (hr : r.RaisedBy s.lists s.memory memory held actions) :
    r.Kept { s with memory := memory, frames := (⟨[], actions⟩, held) :: s.frames } := by
  refine h.of_disk rfl rfl (le_refl _) ?_
  exact h.sound.issue hr.rises fun hne => r.unwritten_eq_nil (hr.settled hne)

/-- The next action of the top list is no update; the message it may send is gone from it. -/
theorem sound_advance {action : Action} {rest : List Action} {held : Option Locked}
    {frames : List (Frame × Option Locked)} (h : r.Kept s)
    (htop : s.frames = (⟨[], action :: rest⟩, held) :: frames) (ha : ∀ u, action ≠ .persist u) :
    Sound (r.read s.disk) (r.read s.memory)
      (((⟨[], rest⟩, held) :: frames : List (Frame × Option Locked)).map r.task) := by
  have hs := h.sound
  rw [htop] at hs
  cases action with
  | persist u => exact absurd rfl (ha u)
  | broadcast msg =>
    cases hn : r.need held msg with
    | none => rwa [List.map_cons, r.task_send_of_none hn] at hs
    | some need =>
      rw [List.map_cons, r.task_send hn] at hs
      exact hs.advance
  | _ => exact hs

/-- What the next message needs is on disk. -/
theorem need_le {msg : ConsensusMsg} {rest : List Action} {held : Option Locked}
    {frames : List (Frame × Option Locked)} (h : r.Kept s)
    (htop : s.frames = (⟨[], .broadcast msg :: rest⟩, held) :: frames) :
    ∀ a ∈ r.need held msg, a ≤ r.read s.disk := by
  intro a ha
  have hs := h.sound
  rw [htop, List.map_cons, r.task_send ha] at hs
  exact hs.need_le

theorem move (ho : r.Obeys P G) (h : r.Kept s) (hm : Running.Move P G s s') : r.Kept s' := by
  cases hm with
  | push emits memory guard =>
    apply h.issue
    rw [← memory]
    exact ho.push emits guard
  | quiet held unrecorded =>
    apply h.issue
    have he := r.entries_quiet unrecorded held
    exact ⟨he ▸ .nil _, fun hne => absurd he hne⟩
  | build held guard => exact h.issue (ho.build guard)
  | buffer top =>
    rename_i buf u rest held frames
    refine h.of_disk rfl rfl (le_refl _) ?_
    have hs := h.sound
    rw [top] at hs
    cases hl : r.level u with
    | none =>
      rw [List.map_cons, r.task_write_of_none hl] at hs
      exact hs
    | some l =>
      rw [List.map_cons, r.task_write hl] at hs
      rw [List.map_cons, r.task_buffered, hl, Option.toList_some]
      exact hs.buffer
  | flush top =>
    rename_i buf rest held frames
    have hs := h.sound
    rw [top, List.map_cons] at hs
    have hdisk := r.read_foldl_put s.disk buf
    refine h.of_disk rfl rfl ?_ ?_
    · rw [hdisk]
      exact hs.flush_le _ (List.mem_cons_self ..)
    · rw [hdisk]
      exact hs.flush
  | deliver top same =>
    rename_i msg msg' rest held frames
    refine ⟨fun e he a ha => ?_, h.stash, h.sound_advance top fun u => Action.noConfusion⟩
    rcases List.mem_append.mp he with he | he
    · exact h.delivered e he a ha
    · obtain rfl := List.mem_singleton.mp he
      apply h.need_le top
      rcases same with rfl | ⟨p, p', rfl, rfl, hview⟩
      · exact ha
      · rwa [r.need_view hview] at ha
  | hold top same =>
    refine ⟨h.delivered, fun q hq a ha => ?_, h.sound_advance top fun u => Action.noConfusion⟩
    obtain rfl := Option.some.inj hq
    apply h.need_le top
    rwa [r.need_view same] at ha
  | skip top unwritten => exact ⟨h.delivered, h.stash, h.sound_advance top unwritten⟩
  | finish top =>
    have hs := h.sound
    rw [top] at hs
    exact ⟨h.delivered, h.stash, hs.finish⟩
  | release held stashed =>
    rename_i p
    refine ⟨fun e he a ha => ?_, fun q hq => absurd hq (by simp), h.sound⟩
    rcases List.mem_append.mp he with he | he
    · exact h.delivered e he a ha
    · obtain rfl := List.mem_singleton.mp he
      have hview : r.need held (.proposal p) = r.need none (.proposal p) := r.need_view rfl
      exact h.stash p stashed a (hview ▸ ha)
  | adopt guard =>
    rename_i m
    rcases ho.adopt guard with hsame | ⟨hsettled, hdisk, hmemory⟩
    · refine h.of_disk rfl rfl ?_ ?_
      · rw [hsame]
      · rw [hsame, hsame]
        exact h.sound
    · obtain ⟨hle, hlevel⟩ := hmemory s.memory
      refine h.of_disk rfl rfl hdisk ?_
      exact h.sound.adopt (r.unwritten_eq_nil hsettled) hdisk hle hlevel

theorem moves (ho : r.Obeys P G) (h : r.Kept s) (hm : Running.Moves P G s s') : r.Kept s' := by
  induction hm with
  | refl => exact h
  | tail _ hlast ih => exact ih.move ho hlast

theorem disk_le (ho : r.Obeys P G) (h : r.Kept s) (hm : Running.Move P G s s') :
    r.read s.disk ≤ r.read s'.disk := by
  cases hm with
  | flush top =>
    have hs := h.sound
    rw [top] at hs
    rw [r.read_foldl_put]
    exact hs.flush_le _ (List.mem_cons_self ..)
  | adopt guard =>
    rcases ho.adopt guard with hsame | ⟨-, hdisk, -⟩
    · rw [hsame]
    · exact hdisk
  | _ => exact le_refl _

/-- The level on disk never falls. -/
theorem disk_le_of_moves (ho : r.Obeys P G) (h : r.Kept s) (hm : Running.Moves P G s s') :
    r.read s.disk ≤ r.read s'.disk := by
  induction hm with
  | refl => exact le_refl _
  | tail hfirst hlast ih => exact le_trans ih ((h.moves ho hfirst).disk_le ho hlast)

end Kept

/-- Nothing has left the node that needs more than what is on disk, whether it runs or not. -/
structure Remembers (w : Logbook) : Prop where
  durable : ∀ e ∈ w.delivered, ∀ a ∈ r.need e.2 e.1, a ≤ r.read w.machine.storage.records
  running : ∀ p ∈ w.machine.process, r.Kept (w.running p)

theorem remembers_start : r.Remembers .start where
  durable := fun e he => absurd he List.not_mem_nil
  running := fun p hp => absurd hp (by simp [Logbook.start, Machine.start])

/-- After a crash the node has what is on disk. -/
theorem kept_fresh {records : Records} {delivered : List (ConsensusMsg × Option Locked)}
    (h : ∀ e ∈ delivered, ∀ a ∈ r.need e.2 e.1, a ≤ r.read records) :
    r.Kept ⟨records, delivered, records, none, []⟩ where
  delivered := h
  stash := fun p hp => absurd hp (by simp)
  sound := .start _

theorem Remembers.turn {r : Register α} {P : Primitives} {G : Guard} {w w' : Logbook}
    (ho : r.Obeys P G) (h : r.Remembers w) (ht : Turn G P w w') : r.Remembers w' := by
  cases ht with
  | work p p' hp hp' moves =>
    have hkept := (h.running p hp).moves ho moves
    refine ⟨hkept.delivered, fun q hq => ?_⟩
    obtain rfl := Option.some.inj (hp'.symm.trans hq)
    exact hkept
  | down stopped disk delivered =>
    refine ⟨?_, fun q hq => ?_⟩
    · rw [delivered, disk]
      exact h.durable
    · rw [stopped] at hq
      cases hq
  | up p stopped running fresh =>
    have hd : w'.delivered = w.delivered := congrArg Running.delivered fresh
    have hr : w'.machine.storage.records = w.machine.storage.records :=
      congrArg Running.disk fresh
    refine ⟨?_, fun q hq => ?_⟩
    · rw [hd, hr]
      exact h.durable
    · obtain rfl := Option.some.inj (running.symm.trans hq)
      rw [fresh]
      exact r.kept_fresh h.durable

end Register

/-! ### What a step of the core raises -/

/-- The locks written by the actions lead to the lock of the core. -/
theorem HotStuffCore.Emits.lockAfter {P : Primitives} {c c' : HotStuffCore}
    {calls : List AcceptCall} {actions : List Action} (h : Emits P c calls actions c') :
    (actions.filterMap Action.update?).foldl StateUpdate.lockAfter c.state.locked =
      c'.state.locked := by
  induction h with
  | idle same quiet =>
    rename_i actions
    rw [same.locked]
    have hnone : actions.filterMap Action.update? = [] := by
      refine List.filterMap_eq_nil_iff.mpr fun a ha => ?_
      have hq := quiet a ha
      cases a with
      | persist u => cases hq
      | _ => rfl
    rw [hnone]
    rfl
  | accept c p =>
    rw [acceptProposal_actions, acceptProposal_locked]
    have hcommit : (((c.state.commits P p).map Action.commit).toList).filterMap Action.update? =
        [] := by
      cases c.state.commits P p <;> rfl
    have hvote : (if c.state.votesFor P p then
        [Action.broadcast (.vote ⟨p.block.header.view, p.block.hash P⟩)] else []).filterMap
          Action.update? = [] := by
      split_ifs <;> rfl
    have hupdates : ((c.state.voteUpdates P p).filterMap Action.update?).foldl
        StateUpdate.lockAfter c.state.locked = c.state.locked := by
      unfold voteUpdates
      split_ifs <;> rfl
    rw [List.filterMap_append, List.filterMap_append, List.filterMap_append, hcommit, hvote,
      List.append_nil, List.append_nil, List.foldl_append, hupdates]
    unfold lockActions nextLock
    cases c.state.lockCandidate P p with
    | none => rfl
    | some l =>
      simp only
      split_ifs <;> rfl
  | raise _ => rfl
  | announce _ => rfl
  | append _ _ ih ih' => rw [List.filterMap_append, List.foldl_append, ih, ih']

namespace Register
variable {α : Type} [Preorder α] (r : Register α)

/-- A record that is read from what `SameRecords` keeps rises with a step, if it rises with
what the step is made of. -/
theorem rises_of_emits {P : Primitives} {c c' : HotStuffCore} {calls : List AcceptCall}
    {actions : List Action} (h : Emits P c calls actions c')
    (haccept : ∀ (c : HotStuffCore) (p : Proposal), (c.state, p) ∈ calls →
      Rises (r.read c.records)
        (r.read { c with state := (c.state.acceptProposal P p).1 : HotStuffCore }.records)
        (r.entries c.state.locked (c.state.acceptProposal P p).2))
    (hraise : ∀ (c : HotStuffCore) (qc : QuorumCertificate),
      shouldUpdateHighQc qc c.state = true →
      Rises (r.read c.records) (r.read (c.setHighQc qc).records)
        (r.entries c.state.locked [.persist (.highQc qc)]))
    (hannounce : ∀ (c : HotStuffCore) (qc : QuorumCertificate), c.state.highQc = some qc →
      Rises (r.read c.records) (r.read c.records)
        (r.entries c.state.locked [.broadcast (.newView ⟨qc⟩)])) :
    Rises (r.read c.records) (r.read c'.records) (r.entries c.state.locked actions) := by
  induction h with
  | idle same quiet =>
    rw [same.records_eq, r.entries_quiet quiet]
    exact .nil _
  | accept c p => exact haccept c p (List.mem_singleton_self _)
  | raise higher => exact hraise _ _ higher
  | announce known => exact hannounce _ _ known
  | append first second ih ih' =>
    rw [entries_append, first.lockAfter]
    apply (ih fun c p hp => haccept c p (List.mem_append_left _ hp)).append
    exact ih' fun c p hp => haccept c p (List.mem_append_right _ hp)

/-- The record is that of the last voted view. -/
def voted : Register ℕ where
  kind := .voted
  level
    | .votedInView view => some view
    | _ => none
  need
    | _, .vote v => some v.view
    | _, _ => none
  read := Records.votedView
  read_put := by intro r u; cases u <;> rfl
  level_kind := by intro u a h; cases u <;> first | rfl | cases h
  need_relies := by intro held msg a h; cases msg <;> simp_all [ConsensusMsg.relies]
  need_view := fun _ => rfl

/-- The record is the view of the high certificate. -/
def highQc : Register ℕ where
  kind := .highQc
  level
    | .highQc qc => some qc.view
    | _ => none
  need
    | _, .newView nv => some nv.highQc.view
    | _, _ => none
  read := Records.highQcView
  read_put := by intro r u; cases u <;> rfl
  level_kind := by intro u a h; cases u <;> first | rfl | cases h
  need_relies := by intro held msg a h; cases msg <;> simp_all [ConsensusMsg.relies]
  need_view := fun _ => rfl

/-- The record is the view the node has proposed in. -/
def proposed : Register ℕ where
  kind := .proposed
  level
    | .proposedInView view => some view
    | _ => none
  need
    | _, .proposal p => some p.block.header.view
    | _, _ => none
  read := Records.proposedInView
  read_put := by intro r u; cases u <;> rfl
  level_kind := by intro u a h; cases u <;> first | rfl | cases h
  need_relies := by intro held msg a h; cases msg <;> simp_all [ConsensusMsg.relies]
  need_view := by intro held held' p p' h; exact congrArg some h

end Register

/-- View and height of a lock; no lock is below all of them. -/
def lockLevel : Option Locked → WithBot (ℕ × ℕ)
  | none => ⊥
  | some l => ((l.view, l.height) : ℕ × ℕ)

theorem lockLevel_le_iff {l l' : Option Locked} : lockLevel l ≤ lockLevel l' ↔
    ∀ x ∈ l, ∃ y ∈ l', x.view ≤ y.view ∧ x.height ≤ y.height := by
  cases l with
  | none => simp [lockLevel]
  | some x =>
    cases l' with
    | none => simp [lockLevel]
    | some y => simp [lockLevel, WithBot.coe_le_coe, Prod.mk_le_mk]

/-- The record is the lock; a vote needs the one that its core held. -/
def Register.lock : Register (WithBot (ℕ × ℕ)) where
  kind := .locked
  level
    | .locked l => some (lockLevel (some l))
    | _ => none
  need
    | held, .vote _ => some (lockLevel held)
    | _, _ => none
  read := fun r => lockLevel r.locked
  read_put := by intro r u; cases u <;> rfl
  level_kind := by intro u a h; cases u <;> first | rfl | cases h
  need_relies := by intro held msg a h; cases msg <;> simp_all [ConsensusMsg.relies]
  need_view := fun _ => rfl

/-! ### The records of an accepted proposal -/

/-- The lock stays, or it moves to the candidate. -/
theorem HotStuffState.lockActions_cases (P : Primitives) (s : HotStuffState) (p : Proposal) :
    (s.lockActions P p = [] ∧ s.nextLock P p = s.locked) ∨
      ∃ l, s.lockCandidate P p = some l ∧ s.lockedHeight < l.height ∧
        s.lockActions P p = [.persist (.locked l)] ∧ s.nextLock P p = some l := by
  unfold lockActions nextLock
  cases s.lockCandidate P p with
  | none => exact .inl ⟨rfl, rfl⟩
  | some l =>
    by_cases hl : s.lockedHeight < l.height
    · exact .inr ⟨l, rfl, hl, if_pos hl, if_pos hl⟩
    · exact .inl ⟨if_neg hl, if_neg hl⟩

namespace Register
variable {P : Primitives}

theorem entries_commit {α : Type} (r : Register α) (held : Option Locked) (b : Option Block) :
    r.entries held (b.map Action.commit).toList = [] := by
  cases b <;> rfl

theorem entries_voted (held : Option Locked) (s : HotStuffState) (p : Proposal) :
    voted.entries held (s.acceptProposal P p).2 =
      if s.votesFor P p then [.write p.block.header.view, .send p.block.header.view] else [] := by
  rw [acceptProposal_actions, entries_append, entries_commit, List.append_nil]
  unfold voteUpdates
  rcases lockActions_cases P s p with ⟨hl, -⟩ | ⟨l, -, -, hl, -⟩ <;> rw [hl] <;>
    split_ifs <;> rfl

theorem entries_highQc (held : Option Locked) (s : HotStuffState) (p : Proposal) :
    highQc.entries held (s.acceptProposal P p).2 =
      if s.votesFor P p ∧ shouldUpdateHighQc p.justify s then [.write p.justify.view] else [] := by
  rw [acceptProposal_actions, entries_append, entries_commit, List.append_nil]
  unfold voteUpdates
  rcases lockActions_cases P s p with ⟨hl, -⟩ | ⟨l, -, -, hl, -⟩ <;> rw [hl] <;>
    split_ifs <;> first | rfl | tauto

theorem entries_proposed (held : Option Locked) (s : HotStuffState) (p : Proposal) :
    proposed.entries held (s.acceptProposal P p).2 = [] := by
  rw [acceptProposal_actions, entries_append, entries_commit, List.append_nil]
  unfold voteUpdates
  rcases lockActions_cases P s p with ⟨hl, -⟩ | ⟨l, -, -, hl, -⟩ <;> rw [hl] <;>
    split_ifs <;> rfl

/-! ### Every record rises -/

variable {c c' : HotStuffCore} {calls : List AcceptCall} {actions : List Action}

theorem rises_voted (h : Emits P c calls actions c') :
    Rises (voted.read c.records) (voted.read c'.records)
      (voted.entries c.state.locked actions) := by
  apply voted.rises_of_emits h
  · intro c p _
    have hlast : voted.read { c with state := (c.state.acceptProposal P p).1 : HotStuffCore
        }.records = if c.state.votesFor P p then p.block.header.view else c.state.lastVotedView :=
      acceptProposal_lastVotedView P c.state p
    rw [entries_voted, hlast]
    by_cases hv : c.state.votesFor P p = true
    · have hlt := lastVotedView_lt_of_safeToVote hv
      rw [insertPending_lastVotedView] at hlt
      rw [if_pos hv, if_pos hv]
      exact (Rises.write (Nat.le_of_lt hlt)).append (.send (Nat.le_refl _))
    · rw [if_neg hv, if_neg hv]
      exact .nil _
  · exact fun c qc _ => .nil _
  · exact fun c qc _ => .nil _

theorem qcView_le_of_shouldUpdate {qc : QuorumCertificate} {s : HotStuffState}
    (h : shouldUpdateHighQc qc s = true) : qcView s.highQc ≤ qc.view := by
  unfold shouldUpdateHighQc at h
  cases hq : s.highQc with
  | none => exact Nat.zero_le _
  | some existing =>
    rw [hq] at h
    exact Nat.le_of_lt (of_decide_eq_true h)

theorem rises_highQc (h : Emits P c calls actions c') :
    Rises (highQc.read c.records) (highQc.read c'.records)
      (highQc.entries c.state.locked actions) := by
  apply highQc.rises_of_emits h
  · intro c p _
    have hqc : highQc.read { c with state := (c.state.acceptProposal P p).1 : HotStuffCore
        }.records = qcView (if c.state.votesFor P p ∧ shouldUpdateHighQc p.justify c.state then
          some p.justify else c.state.highQc) :=
      congrArg qcView (acceptProposal_highQc P c.state p)
    rw [entries_highQc, hqc]
    by_cases hu : c.state.votesFor P p = true ∧ shouldUpdateHighQc p.justify c.state = true
    · rw [if_pos hu, if_pos hu]
      exact .write (qcView_le_of_shouldUpdate hu.2)
    · rw [if_neg hu, if_neg hu]
      exact .nil _
  · exact fun c qc hu => .write (qcView_le_of_shouldUpdate hu)
  · intro c qc hq
    apply Rises.send
    show qc.view ≤ qcView c.state.highQc
    rw [hq]
    exact Nat.le_refl _

theorem rises_proposed (h : Emits P c calls actions c') :
    Rises (proposed.read c.records) (proposed.read c'.records)
      (proposed.entries c.state.locked actions) := by
  apply proposed.rises_of_emits h
  · intro c p _
    rw [entries_proposed]
    exact .nil _
  · exact fun c qc _ => .nil _
  · exact fun c qc _ => .nil _

end Register

/-- The lock does not move to a lower view. -/
def AcceptCall.LockRises (P : Primitives) (call : AcceptCall) : Prop :=
  ∀ l ∈ call.1.lockCandidate P call.2, call.1.lockedHeight < l.height →
    ∀ l₀ ∈ call.1.locked, l₀.view ≤ l.view

instance (P : Primitives) (call : AcceptCall) : Decidable (call.LockRises P) :=
  inferInstanceAs (Decidable (∀ l ∈ call.1.lockCandidate P call.2, _ → _))

theorem Register.rises_lock {P : Primitives} {c c' : HotStuffCore} {calls : List AcceptCall}
    {actions : List Action} (h : Emits P c calls actions c')
    (hl : ∀ call ∈ calls, call.LockRises P) :
    Rises (lock.read c.records) (lock.read c'.records)
      (lock.entries c.state.locked actions) := by
  apply lock.rises_of_emits h
  · intro c p hcall
    have hlock : lock.read { c with state := (c.state.acceptProposal P p).1 : HotStuffCore
        }.records = lockLevel (c.state.nextLock P p) :=
      congrArg lockLevel (acceptProposal_locked P c.state p)
    have hupdates : lock.entries c.state.locked (c.state.voteUpdates P p) = [] ∧
        ((c.state.voteUpdates P p).filterMap Action.update?).foldl StateUpdate.lockAfter
          c.state.locked = c.state.locked := by
      unfold voteUpdates
      split_ifs <;> exact ⟨rfl, rfl⟩
    have hvote : ∀ held, Rises (lockLevel held) (lockLevel held) (lock.entries held
        (if c.state.votesFor P p then
          [.broadcast (.vote ⟨p.block.header.view, p.block.hash P⟩)] else [])) := by
      intro held
      split_ifs
      · exact .send (le_refl _)
      · exact .nil _
    have hread : lock.read c.records = lockLevel c.state.locked := rfl
    rw [hlock, hread, acceptProposal_actions, entries_append, entries_commit, List.append_nil,
      entries_append, entries_append, hupdates.1, List.nil_append, List.filterMap_append,
      List.foldl_append, hupdates.2]
    rcases lockActions_cases P c.state p with ⟨ha, hn⟩ | ⟨l, hc, hheight, ha, hn⟩
    · rw [ha, hn]
      exact hvote _
    · rw [ha, hn]
      refine Rises.append (.write ?_) (hvote (some l))
      apply lockLevel_le_iff.mpr
      intro l₀ hl₀
      refine ⟨l, rfl, hl _ hcall l hc hheight l₀ hl₀, ?_⟩
      have heq : c.state.lockedHeight = l₀.height := by
        unfold lockedHeight
        rw [Option.mem_def.mp hl₀]
        rfl
      omega
  · exact fun c qc _ => .nil _
  · exact fun c qc _ => .nil _

end Boule
