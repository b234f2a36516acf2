import Boule.Lib.ReplayGuard
import Boule.NextMembers
import Boule.Node.RestartedHistories

/-! The registry of endpoints over runs of commands, seeds and removals. Its guard against replays
is a counter for each validator, which seeding and forgetting set back. -/
namespace Boule
open ConsensusNode ReplayGuard

inductive EndpointEvent where
  | apply (cmd : EndpointCommand)
  | seed (validator : NodeId) (entries : List EndpointEntry)
  | forget (validator : NodeId)
  | setMaxLen (maxLen : ℕ)
  deriving DecidableEq

namespace EndpointRegistry

def step (r : EndpointRegistry) : EndpointEvent → EndpointRegistry
  | .apply cmd => (r.apply cmd).1
  | .seed validator entries => keepOnError (r.seed validator entries) r
  | .forget validator => (r.forget validator).1
  | .setMaxLen maxLen => r.setMaxLen maxLen

/-- Whether the call returns an error. -/
def refuses (r : EndpointRegistry) : EndpointEvent → Bool
  | .apply cmd => !(r.apply cmd).2.isOk
  | .seed validator entries => !(r.seed validator entries).isOk
  | _ => false

/-- The command that takes effect. -/
def effect (r : EndpointRegistry) : EndpointEvent → Option EndpointCommand
  | .apply cmd => if (r.apply cmd).2.isOk then some cmd else none
  | _ => none

/-- Equal as values: a map is what it has under each key. -/
structure SameValue (r r' : EndpointRegistry) : Prop where
  byValidator : r.byValidator.Same r'.byValidator
  maxLen : r.maxLen = r'.maxLen

/-- No id comes twice in a list. -/
def Distinct (r : EndpointRegistry) : Prop :=
  ∀ v, ((r.endpointsOf v).map EndpointEntry.networkId).Nodup

def Bounded (r : EndpointRegistry) : Prop := ∀ v, (r.endpointsOf v).length ≤ r.maxLen

/-- What is asked of a run. -/
structure Lawful (r : EndpointRegistry) (events : List EndpointEvent) : Prop where
  once : (taken step effect r events).Nodup
  distinct : ∀ k, (run step r (events.take k)).Distinct
  bounded : Along step (fun r e => ∀ n, e = .setMaxLen n → r.maxLen ≤ n) r events →
    ∀ k, (run step r (events.take k)).Bounded
  rising : Along step (fun r e => ∀ v, r.lastSeq v ≤ (r.step e).lastSeq v) r events
  atomic : Along step (fun r e => r.refuses e = true → (r.step e).SameValue r) r events

end EndpointRegistry

/-- What a list must be to be taken as the list of a validator. -/
def EntriesFit (maxLen : ℕ) (entries : List EndpointEntry) : Prop :=
  (entries.map EndpointEntry.networkId).Nodup ∧ entries.length ≤ maxLen

/-- What a command must be to be applied for a validator that is not listed. -/
def EndpointOp.Fits (maxLen : ℕ) : EndpointOp → Prop
  | .set entries => EntriesFit maxLen entries
  | .add entries => EntriesFit maxLen entries
  | .remove _ => True

instance (maxLen : ℕ) (entries : List EndpointEntry) : Decidable (EntriesFit maxLen entries) :=
  inferInstanceAs (Decidable (_ ∧ _))

instance (maxLen : ℕ) (op : EndpointOp) : Decidable (op.Fits maxLen) :=
  match op with
  | .set entries => inferInstanceAs (Decidable (EntriesFit maxLen entries))
  | .add entries => inferInstanceAs (Decidable (EntriesFit maxLen entries))
  | .remove _ => inferInstanceAs (Decidable True)

/-- No counter is set back, and no refused command is of a validator that is not listed. -/
def EndpointRegistry.KeepsCounters (r : EndpointRegistry) : EndpointEvent → Prop
  | .apply cmd => r.byValidator.containsKey cmd.validator = true ∨
      0 < cmd.seq ∧ cmd.op.Fits r.maxLen
  | .seed validator entries => entries ≠ [] → EntriesFit r.maxLen entries →
      r.lastSeq validator = 0
  | .forget validator => r.lastSeq validator = 0
  | .setMaxLen _ => True

/-! ### What the checks let pass -/

theorem dedupCheck_eq_ok {entries : List EndpointEntry} {u : Unit} :
    dedupCheck entries = .ok u ↔ (entries.map EndpointEntry.networkId).Nodup := by
  unfold dedupCheck
  rw [refuse_eq_ok, firstDuplicate_eq_none]
  simp

/-- Adding goes through for ids that are neither there nor twice among the new ones. -/
theorem addEntries_eq_ok {entries more next : List EndpointEntry} :
    addEntries entries more = .ok next ↔ next = entries ++ more ∧
      (more.map EndpointEntry.networkId).Nodup ∧
      ∀ e ∈ more, e.networkId ∉ entries.map EndpointEntry.networkId := by
  induction more generalizing entries with
  | nil =>
    rw [List.append_nil]
    constructor
    · intro h
      exact ⟨(Except.ok.inj h).symm, .nil, by simp⟩
    · rintro ⟨rfl, -⟩
      rfl
  | cons e more ih =>
    have hstep : addEntries entries (e :: more) = .ok next ↔
        entries.find? (·.networkId = e.networkId) = none ∧
          addEntries (entries ++ [e]) more = .ok next := by
      unfold addEntries
      rw [List.foldlM_cons, bind_eq_ok]
      constructor
      · rintro ⟨a, ha, hrest⟩
        obtain ⟨u, hu, ha⟩ := bind_eq_ok.mp ha
        rw [← Except.ok.inj ha] at hrest
        exact ⟨refuse_eq_ok.mp hu, hrest⟩
      · rintro ⟨hnone, hrest⟩
        exact ⟨entries ++ [e], bind_eq_ok.mpr ⟨(), refuse_eq_ok.mpr hnone, rfl⟩, hrest⟩
    have hfresh : entries.find? (·.networkId = e.networkId) = none ↔
        e.networkId ∉ entries.map EndpointEntry.networkId := by
      simp
    rw [hstep, hfresh, ih, List.append_assoc, List.singleton_append, List.map_cons,
      List.nodup_cons, List.forall_mem_cons, List.map_append]
    simp only [List.mem_append, List.map_cons, List.map_nil, List.mem_singleton, not_or]
    constructor
    · rintro ⟨he, rfl, hnodup, hrest⟩
      refine ⟨rfl, ⟨?_, hnodup⟩, he, fun x hx => (hrest x hx).1⟩
      intro hmem
      obtain ⟨x, hx, hid⟩ := List.mem_map.mp hmem
      exact (hrest x hx).2 hid
    · rintro ⟨rfl, ⟨hnot, hnodup⟩, he, hrest⟩
      exact ⟨he, rfl, hnodup, fun x hx =>
        ⟨hrest x hx, fun hid => hnot (hid ▸ List.mem_map_of_mem hx)⟩⟩

/-- The entries that a command leaves, when it is not refused. -/
def EndpointOp.result (entries : List EndpointEntry) : EndpointOp → List EndpointEntry
  | .set entries' => entries'
  | .add more => entries ++ more
  | .remove ids => entries.filter (·.networkId ∉ ids)

/-- Whether the ids of a command allow it. -/
def EndpointOp.Allowed (entries : List EndpointEntry) : EndpointOp → Prop
  | .set entries' => (entries'.map EndpointEntry.networkId).Nodup
  | .add more => (more.map EndpointEntry.networkId).Nodup ∧
      ∀ e ∈ more, e.networkId ∉ entries.map EndpointEntry.networkId
  | .remove _ => True

open EndpointRegistry

theorem proposed_eq_ok {maxLen : ℕ} {cur next : ValidatorEndpoints} {cmd : EndpointCommand} :
    proposed maxLen cur cmd = .ok next ↔ cur.lastSeq < cmd.seq ∧ cmd.op.Allowed cur.entries ∧
      (cmd.op.result cur.entries).length ≤ maxLen ∧
      next = ⟨cmd.seq, cmd.op.result cur.entries⟩ := by
  have htail : ∀ entries : List EndpointEntry,
      ((require (entries.length ≤ maxLen)
          (EndpointApplyError.tooLong maxLen entries.length) >>= fun _ =>
        Except.ok (⟨cmd.seq, entries⟩ : ValidatorEndpoints)) = .ok next ↔
      entries.length ≤ maxLen ∧ next = ⟨cmd.seq, entries⟩) := by
    intro entries
    rw [bind_eq_ok]
    constructor
    · rintro ⟨u, hlen, h⟩
      exact ⟨of_decide_eq_true (require_eq_ok.mp hlen), (Except.ok.inj h).symm⟩
    · rintro ⟨hlen, rfl⟩
      exact ⟨(), require_eq_ok.mpr (decide_eq_true hlen), rfl⟩
  unfold proposed
  rw [bind_eq_ok]
  cases hop : cmd.op with
  | set entries =>
    constructor
    · rintro ⟨u, hseq, h⟩
      obtain ⟨next', hset, h⟩ := bind_eq_ok.mp h
      obtain ⟨v, hnodup, rfl⟩ := map_eq_ok.mp hset
      exact ⟨of_decide_eq_true (require_eq_ok.mp hseq), dedupCheck_eq_ok.mp hnodup,
        (htail _).mp h⟩
    · rintro ⟨hseq, hnodup, h⟩
      exact ⟨(), require_eq_ok.mpr (decide_eq_true hseq), bind_eq_ok.mpr ⟨entries,
        map_eq_ok.mpr ⟨(), dedupCheck_eq_ok.mpr hnodup, rfl⟩, (htail _).mpr h⟩⟩
  | add more =>
    constructor
    · rintro ⟨u, hseq, h⟩
      obtain ⟨next', hadd, h⟩ := bind_eq_ok.mp h
      obtain ⟨v, -, hadd⟩ := bind_eq_ok.mp hadd
      obtain ⟨rfl, hallowed⟩ := addEntries_eq_ok.mp hadd
      exact ⟨of_decide_eq_true (require_eq_ok.mp hseq), hallowed, (htail _).mp h⟩
    · rintro ⟨hseq, hallowed, h⟩
      exact ⟨(), require_eq_ok.mpr (decide_eq_true hseq), bind_eq_ok.mpr ⟨_,
        bind_eq_ok.mpr ⟨(), dedupCheck_eq_ok.mpr hallowed.1,
          addEntries_eq_ok.mpr ⟨rfl, hallowed⟩⟩, (htail _).mpr h⟩⟩
  | remove ids =>
    constructor
    · rintro ⟨u, hseq, h⟩
      exact ⟨of_decide_eq_true (require_eq_ok.mp hseq), trivial, (htail _).mp h⟩
    · rintro ⟨hseq, -, h⟩
      exact ⟨(), require_eq_ok.mpr (decide_eq_true hseq), (htail _).mpr h⟩

/-- For a validator that is not listed. -/
theorem EndpointOp.fits_iff {maxLen : ℕ} {op : EndpointOp} :
    op.Allowed [] ∧ (op.result []).length ≤ maxLen ↔ op.Fits maxLen := by
  cases op with
  | set entries => exact Iff.rfl
  | add more => simp [Allowed, result, Fits, EntriesFit]
  | remove ids => simp [Allowed, result, Fits]

theorem EndpointOp.nodup_result {entries : List EndpointEntry} {op : EndpointOp}
    (h : op.Allowed entries) (hentries : (entries.map EndpointEntry.networkId).Nodup) :
    ((op.result entries).map EndpointEntry.networkId).Nodup := by
  cases op with
  | set entries' => exact h
  | add more =>
    rw [result, List.map_append, List.nodup_append']
    refine ⟨hentries, h.1, fun id hid hmore => ?_⟩
    obtain ⟨e, he, rfl⟩ := List.mem_map.mp hmore
    exact h.2 e he hid
  | remove ids => exact hentries.sublist (List.filter_sublist.map _)

namespace EndpointRegistry

variable {r r' : EndpointRegistry} {events : List EndpointEvent}

theorem seed_eq_ok {validator : NodeId} {entries : List EndpointEntry} :
    r.seed validator entries = .ok r' ↔
      entries = [] ∧ r' = r ∨
        entries ≠ [] ∧ EntriesFit r.maxLen entries ∧ r' = r.put validator ⟨0, entries⟩ := by
  unfold seed
  cases entries with
  | nil =>
    rw [if_pos List.isEmpty_nil]
    constructor
    · intro h
      exact .inl ⟨rfl, (Except.ok.inj h).symm⟩
    · rintro (⟨-, rfl⟩ | ⟨hne, -⟩)
      · rfl
      · exact absurd rfl hne
  | cons e entries =>
    rw [if_neg (by simp), bind_eq_ok]
    constructor
    · rintro ⟨u, hnodup, h⟩
      obtain ⟨v, hlen, h⟩ := bind_eq_ok.mp h
      exact .inr ⟨List.cons_ne_nil _ _, ⟨dedupCheck_eq_ok.mp hnodup,
        of_decide_eq_true (require_eq_ok.mp hlen)⟩, (Except.ok.inj h).symm⟩
    · rintro (⟨hnil, -⟩ | ⟨-, hfit, rfl⟩)
      · cases hnil
      · exact ⟨(), dedupCheck_eq_ok.mpr hfit.1,
          bind_eq_ok.mpr ⟨(), require_eq_ok.mpr (decide_eq_true hfit.2), rfl⟩⟩

theorem apply_of_ok {cmd : EndpointCommand} {next : ValidatorEndpoints}
    (h : proposed r.maxLen (r.current cmd.validator) cmd = .ok next) :
    r.apply cmd = (r.put cmd.validator next, .ok ()) := by
  unfold apply
  simp only [h]

theorem apply_of_proposed_error {cmd : EndpointCommand} {e : EndpointApplyError}
    (h : proposed r.maxLen (r.current cmd.validator) cmd = .error e) :
    r.apply cmd = (r.put cmd.validator (r.current cmd.validator), .error e) := by
  unfold apply
  simp only [h]

theorem isOk_apply_iff {cmd : EndpointCommand} : (r.apply cmd).2.isOk = true ↔
    r.lastSeq cmd.validator < cmd.seq ∧ cmd.op.Allowed (r.endpointsOf cmd.validator) ∧
      (cmd.op.result (r.endpointsOf cmd.validator)).length ≤ r.maxLen := by
  cases hp : proposed r.maxLen (r.current cmd.validator) cmd with
  | error e =>
    rw [apply_of_proposed_error hp]
    refine iff_of_false (fun h => by cases h) ?_
    rintro ⟨hseq, hallowed, hlen⟩
    rw [proposed_eq_ok.mpr ⟨hseq, hallowed, hlen, rfl⟩] at hp
    cases hp
  | ok next =>
    rw [apply_of_ok hp]
    obtain ⟨hseq, hallowed, hlen, -⟩ := proposed_eq_ok.mp hp
    exact iff_of_true rfl ⟨hseq, hallowed, hlen⟩

/-- What is looked up after a command. -/
theorem current_apply (cmd : EndpointCommand) (v : NodeId) : (r.apply cmd).1.current v =
    if v = cmd.validator ∧ (r.apply cmd).2.isOk = true then
      ⟨cmd.seq, cmd.op.result (r.endpointsOf cmd.validator)⟩
    else r.current v := by
  cases hp : proposed r.maxLen (r.current cmd.validator) cmd with
  | error e =>
    have hnot : ¬ (v = cmd.validator ∧ (r.apply cmd).2.isOk = true) := by
      rw [apply_of_proposed_error hp]
      rintro ⟨-, hok⟩
      cases hok
    rw [if_neg hnot, apply_of_proposed_error hp, current_put]
    split_ifs with hv
    · rw [hv]
    · rfl
  | ok next =>
    obtain ⟨-, -, -, rfl⟩ := proposed_eq_ok.mp hp
    rw [apply_of_ok hp, current_put]
    by_cases hv : v = cmd.validator
    · rw [if_pos hv, if_pos ⟨hv, rfl⟩]
      rfl
    · rw [if_neg hv, if_neg fun h => hv h.1]

theorem current_of_not_listed {v : NodeId} (h : r.byValidator.containsKey v = false) :
    r.current v = {} := by
  rw [current, (Table.containsKey_eq_false_iff r.byValidator v).mp h, Option.getD_none]

theorem step_seed_of_ok {validator : NodeId} {entries : List EndpointEntry}
    (h : r.seed validator entries = .ok r') : r.step (.seed validator entries) = r' := by
  have hstep : r.step (.seed validator entries) = keepOnError (r.seed validator entries) r := rfl
  rw [hstep, h]
  rfl

/-- A refused seed leaves the registry as it was. -/
theorem step_seed_of_error {validator : NodeId} {entries : List EndpointEntry}
    {e : EndpointApplyError} (h : r.seed validator entries = .error e) :
    r.step (.seed validator entries) = r := by
  have hstep : r.step (.seed validator entries) = keepOnError (r.seed validator entries) r := rfl
  rw [hstep, h]
  rfl

/-- What is looked up after a step. -/
theorem current_step (e : EndpointEvent) (v : NodeId) : (r.step e).current v = r.current v ∨
    (∃ cmd, e = .apply cmd ∧ (r.apply cmd).2.isOk = true ∧ v = cmd.validator ∧
      (r.step e).current v = ⟨cmd.seq, cmd.op.result (r.endpointsOf v)⟩) ∨
    (∃ entries, e = .seed v entries ∧ entries ≠ [] ∧ EntriesFit r.maxLen entries ∧
      (r.step e).current v = ⟨0, entries⟩) ∨
    e = .forget v ∧ (r.step e).current v = {} := by
  cases e with
  | apply cmd =>
    have hcurrent : (r.step (.apply cmd)).current v = _ := current_apply cmd v
    by_cases hv : v = cmd.validator ∧ (r.apply cmd).2.isOk = true
    · rw [if_pos hv, ← hv.1] at hcurrent
      exact .inr (.inl ⟨cmd, rfl, hv.2, hv.1, hcurrent⟩)
    · rw [if_neg hv] at hcurrent
      exact .inl hcurrent
  | seed validator entries =>
    cases hs : r.seed validator entries with
    | error e =>
      rw [step_seed_of_error hs]
      exact .inl rfl
    | ok r' =>
      rw [step_seed_of_ok hs]
      rcases seed_eq_ok.mp hs with ⟨-, rfl⟩ | ⟨hne, hfit, rfl⟩
      · exact .inl rfl
      · rw [current_put]
        split_ifs with hv
        · rw [hv]
          exact .inr (.inr (.inl ⟨entries, rfl, hne, hfit, rfl⟩))
        · exact .inl rfl
  | forget validator =>
    have hcurrent : (r.step (.forget validator)).current v = _ := current_forget r validator v
    split_ifs at hcurrent with hv
    · rw [hv] at hcurrent ⊢
      exact .inr (.inr (.inr ⟨rfl, hcurrent⟩))
    · exact .inl hcurrent
  | setMaxLen maxLen => exact .inl rfl

/-- The maximal length is only set by its own event. -/
theorem maxLen_step {e : EndpointEvent} (h : ∀ n, e = .setMaxLen n → r.maxLen ≤ n) :
    r.maxLen ≤ (r.step e).maxLen := by
  cases e with
  | apply cmd => exact (maxLen_apply r cmd).ge
  | seed validator entries =>
    cases hs : r.seed validator entries with
    | error e => exact (congrArg maxLen (step_seed_of_error hs)).ge
    | ok r' => exact ((congrArg maxLen (step_seed_of_ok hs)).trans (maxLen_of_seed hs)).ge
  | forget validator => exact le_rfl
  | setMaxLen maxLen => exact h maxLen rfl

theorem Distinct.step (h : r.Distinct) (e : EndpointEvent) : (r.step e).Distinct := by
  intro v
  unfold endpointsOf
  rcases r.current_step e v with hsame | ⟨cmd, -, hok, rfl, hnext⟩ |
    ⟨entries, -, -, hfit, hnext⟩ | ⟨-, hnext⟩
  · rw [hsame]
    exact h v
  · rw [hnext]
    exact EndpointOp.nodup_result (isOk_apply_iff.mp hok).2.1 (h cmd.validator)
  · rw [hnext]
    exact hfit.1
  · rw [hnext]
    exact .nil

theorem Bounded.step (h : r.Bounded) (e : EndpointEvent)
    (hkept : ∀ n, e = .setMaxLen n → r.maxLen ≤ n) : (r.step e).Bounded := by
  intro v
  have hmax := maxLen_step hkept
  unfold endpointsOf
  rcases r.current_step e v with hsame | ⟨cmd, -, hok, rfl, hnext⟩ |
    ⟨entries, -, -, hfit, hnext⟩ | ⟨-, hnext⟩
  · rw [hsame]
    exact (h v).trans hmax
  · rw [hnext]
    exact (isOk_apply_iff.mp hok).2.2.trans hmax
  · rw [hnext]
    exact hfit.2.trans hmax
  · rw [hnext]
    exact Nat.zero_le _

/-- A command is applied above the counter, which it raises to its number. -/
theorem raisesCounter :
    RaisesCounter step effect lastSeq EndpointCommand.validator EndpointCommand.seq := by
  intro r e cmd h
  cases e with
  | apply cmd' =>
    unfold effect at h
    simp only at h
    split_ifs at h with hok
    obtain rfl := Option.some.inj h
    refine ⟨(isOk_apply_iff.mp hok).1, ?_⟩
    have hcurrent : (r.step (.apply cmd')).current cmd'.validator = _ :=
      current_apply cmd' cmd'.validator
    rw [lastSeq, hcurrent, if_pos ⟨rfl, hok⟩]
  | _ => cases h

/-- A refused command leaves the registry as it was if its validator is listed. -/
theorem sameValue_apply_iff {cmd : EndpointCommand} :
    ((r.apply cmd).2.isOk = false → (r.apply cmd).1.SameValue r) ↔
      r.KeepsCounters (.apply cmd) := by
  have hkeeps : r.KeepsCounters (.apply cmd) ↔ r.byValidator.containsKey cmd.validator = true ∨
      0 < cmd.seq ∧ cmd.op.Fits r.maxLen := Iff.rfl
  rw [hkeeps]
  cases hlisted : r.byValidator.containsKey cmd.validator with
  | true =>
    refine iff_of_true (fun hfail => ?_) (.inl rfl)
    obtain ⟨cur, hcur⟩ := (Table.containsKey_iff r.byValidator cmd.validator).mp hlisted
    cases hp : proposed r.maxLen (r.current cmd.validator) cmd with
    | ok next =>
      rw [apply_of_ok hp] at hfail
      cases hfail
    | error e =>
      rw [apply_of_proposed_error hp]
      refine ⟨fun v => ?_, rfl⟩
      have hcurrent : r.current cmd.validator = cur := by rw [current, hcur, Option.getD_some]
      rw [hcurrent, put, Table.get?_insert]
      split_ifs with hv
      · rw [hv, hcur]
      · rfl
  | false =>
    have hcurrent := current_of_not_listed hlisted
    have hok : (r.apply cmd).2.isOk = true ↔ 0 < cmd.seq ∧ cmd.op.Fits r.maxLen := by
      rw [isOk_apply_iff, lastSeq, endpointsOf, hcurrent, EndpointOp.fits_iff]
    rw [← hok]
    constructor
    · intro hsame
      right
      by_contra hfail
      have hfail := Bool.eq_false_iff.mpr hfail
      have hget := (hsame hfail).byValidator cmd.validator
      rw [(Table.containsKey_eq_false_iff r.byValidator cmd.validator).mp hlisted] at hget
      cases hp : proposed r.maxLen (r.current cmd.validator) cmd with
      | ok next =>
        rw [apply_of_ok hp] at hfail
        cases hfail
      | error e =>
        rw [apply_of_proposed_error hp, put, Table.get?_insert, if_pos rfl] at hget
        cases hget
    · rintro (hnot | happlied) hfail
      · cases hnot
      · rw [happlied] at hfail
        cases hfail

/-- A step is rising and atomic exactly when it keeps the counters. -/
theorem keepsCounters_iff (e : EndpointEvent) : r.KeepsCounters e ↔
    (∀ v, r.lastSeq v ≤ (r.step e).lastSeq v) ∧
      (r.refuses e = true → (r.step e).SameValue r) := by
  cases e with
  | apply cmd =>
    have hrising : ∀ v, r.lastSeq v ≤ (r.step (.apply cmd)).lastSeq v := by
      intro v
      have hcurrent : (r.step (.apply cmd)).current v = _ := current_apply cmd v
      unfold lastSeq
      rw [hcurrent]
      split_ifs with hv
      · rw [hv.1]
        exact (isOk_apply_iff.mp hv.2).1.le
      · exact le_rfl
    rw [← sameValue_apply_iff]
    unfold refuses step
    rw [Bool.not_eq_true']
    exact ⟨fun hsame => ⟨hrising, hsame⟩, fun h => h.2⟩
  | seed validator entries =>
    have hatomic : r.refuses (.seed validator entries) = true →
        (r.step (.seed validator entries)).SameValue r := by
      intro hfail
      cases hs : r.seed validator entries with
      | ok r' =>
        have hnot : r.refuses (.seed validator entries) = false := by
          unfold refuses
          simp only [hs]
          rfl
        rw [hnot] at hfail
        cases hfail
      | error e =>
        rw [step_seed_of_error hs]
        exact ⟨.refl _, rfl⟩
    refine ⟨fun hkeeps => ⟨fun v => ?_, hatomic⟩, fun h hne hfit => ?_⟩
    · unfold lastSeq
      rcases r.current_step (.seed validator entries) v with hsame | ⟨cmd, he, -⟩ |
        ⟨entries', he, hne, hfit, hnext⟩ | ⟨he, -⟩
      · rw [hsame]
      · cases he
      · obtain ⟨rfl, rfl⟩ := EndpointEvent.seed.inj he
        have hzero : r.lastSeq validator = 0 := hkeeps hne hfit
        rw [hnext]
        exact hzero.le
      · cases he
    · have hseeded : r.step (.seed validator entries) = r.put validator ⟨0, entries⟩ :=
        step_seed_of_ok (seed_eq_ok.mpr (.inr ⟨hne, hfit, rfl⟩))
      have hle := h.1 validator
      rw [hseeded, lastSeq, lastSeq, current_put, if_pos rfl] at hle
      exact Nat.le_zero.mp hle
  | forget validator =>
    have hcurrent : ∀ v, (r.step (.forget validator)).current v = if v = validator then {}
        else r.current v := current_forget r validator
    refine ⟨fun hzero => ⟨fun v => ?_, fun h => by cases h⟩, fun h => ?_⟩
    · have hzero : r.lastSeq validator = 0 := hzero
      unfold lastSeq at hzero ⊢
      rw [hcurrent]
      split_ifs with hv
      · rw [hv, hzero]
      · exact le_rfl
    · have hle := h.1 validator
      rw [lastSeq, lastSeq, hcurrent, if_pos rfl] at hle
      exact Nat.le_zero.mp hle
  | setMaxLen maxLen => exact iff_of_true trivial ⟨fun v => le_rfl, fun h => by cases h⟩

/-- A run is lawful exactly when all its steps keep the counters. -/
theorem lawful_iff (hdistinct : r.Distinct) (hbounded : r.Bounded) :
    r.Lawful events ↔ Along step KeepsCounters r events := by
  constructor
  · intro h
    exact (h.rising.and h.atomic).mono fun r e hstep => (keepsCounters_iff e).mpr hstep
  · intro h
    have hrising : Along step (fun r e => ∀ v, r.lastSeq v ≤ (r.step e).lastSeq v) r events :=
      h.mono fun r e hkeeps => ((keepsCounters_iff e).mp hkeeps).1
    refine ⟨nodup_taken raisesCounter hrising, fun k => ?_, fun hkept k => ?_, hrising,
      h.mono fun r e hkeeps => ((keepsCounters_iff e).mp hkeeps).2⟩
    · exact run_invariant (I := Distinct) (fun r e hr => hr.step e) hdistinct _
    · exact (hkept.take k).invariant (I := Bounded) (fun r e hle hr => hr.step e hle) hbounded

theorem distinct_new (maxLen : ℕ) : (new maxLen).Distinct := fun _ => .nil

theorem bounded_new (maxLen : ℕ) : (new maxLen).Bounded := fun _ => Nat.zero_le _

end EndpointRegistry

/-! ### The events of a chain -/

inductive ChainInput where
  | commit (block : Block)
  | setMaxLen (maxLen : ℕ)

namespace ChainState

section
variable (P : Primitives) (E : CommitPrimitives) (cfg : NodeConfigForConsensus)

def next (s : ChainState) : ChainInput → ChainState
  | .commit block => s.commit P E cfg block
  | .setMaxLen maxLen => { s with endpoints := s.endpoints.setMaxLen maxLen }

/-- The seeds of the newcomers, and then the removals. -/
def reconfigEvents (cmd : ReconfigCommand) (newSet : ValidatorSet) : List EndpointEvent :=
  (cmd.adds.filter fun entry => newSet.contains entry.nodeId).map
      (fun entry => .seed entry.nodeId entry.initialEndpoints) ++
    cmd.removes.map .forget

/-- What a committed block asks of the registry, in order. -/
def blockEvents (s : ChainState) (block : Block) : List EndpointEvent :=
  let change := blockChange E.toReconfigPrimitives cfg.minVEffDelay (cfg.chainId P)
    s.histories.set block
  let h := applyRotationCommandsToHistories E.toHistoryPrimitives (cfg.chainId P) block
    (s.reconfigure P E cfg block).histories
  change.elim [] (fun change => reconfigEvents change.1 change.2) ++
    (block.commands.filterMap
      (acceptedEndpoint E (cfg.chainId P) h.set h.key block.header.view)).map .apply

def inputEvents (s : ChainState) : ChainInput → List EndpointEvent
  | .commit block => s.blockEvents P E cfg block
  | .setMaxLen maxLen => [.setMaxLen maxLen]

def chainEvents : ChainState → List ChainInput → List EndpointEvent
  | _, [] => []
  | s, input :: inputs =>
    s.inputEvents P E cfg input ++ chainEvents (s.next P E cfg input) inputs

end

open EndpointRegistry

variable {P : Primitives} {E : CommitPrimitives} {cfg : NodeConfigForConsensus}

theorem run_reconfigEvents (r : EndpointRegistry) (cmd : ReconfigCommand)
    (newSet : ValidatorSet) :
    run step r (reconfigEvents cmd newSet) = (reconfigEndpoints r cmd newSet).1 := by
  have hseeds : ∀ (entries : List ValidatorEntry) (p : EndpointRegistry × Bool),
      run step p.1 ((entries.filter fun entry => newSet.contains entry.nodeId).map
        fun entry => .seed entry.nodeId entry.initialEndpoints) =
      (entries.foldl (seedNewcomer newSet) p).1 := by
    intro entries
    induction entries with
    | nil => exact fun p => rfl
    | cons entry entries ih =>
      intro p
      rw [List.foldl_cons, ← ih]
      rw [List.filter_cons]
      unfold seedNewcomer
      by_cases hin : newSet.contains entry.nodeId = true
      · rw [if_pos hin, List.map_cons, run_cons]
        congr 1
        by_cases hempty : entry.initialEndpoints.isEmpty = true
        · rw [if_pos (by simp [hempty]), List.isEmpty_iff.mp hempty]
          exact step_seed_of_ok (seed_eq_ok.mpr (.inl ⟨rfl, rfl⟩))
        · rw [if_neg (by simp [hempty, hin])]
          rfl
      · rw [if_neg hin, if_pos (by simp [hin])]
  have hforgets : ∀ (ids : List NodeId) (p : EndpointRegistry × Bool),
      run step p.1 (ids.map .forget) = (ids.foldl forgetRemoved p).1 := by
    intro ids
    induction ids with
    | nil => exact fun p => rfl
    | cons id ids ih =>
      intro p
      rw [List.map_cons, run_cons, List.foldl_cons, ← ih]
      rfl
  unfold reconfigEvents reconfigEndpoints
  rw [run_append, ← hforgets]
  congr 1
  exact hseeds cmd.adds (r, false)

theorem run_applyEvents (chainId : ChainId) (set : ValidatorSetHistory)
    (key : ValidatorKeyHistory) (block : Block) (r : EndpointRegistry) :
    run step r ((block.commands.filterMap
        (acceptedEndpoint E chainId set key block.header.view)).map .apply) =
      (applyCommittedEndpoints E chainId set key block r).1 := by
  have hloop : ∀ (commands : List Bytes) (p : EndpointRegistry × Bool),
      run step p.1 ((commands.filterMap
        (acceptedEndpoint E chainId set key block.header.view)).map .apply) =
      (commands.foldl (applyCommittedEndpoint E chainId set key block.header.view) p).1 := by
    intro commands
    induction commands with
    | nil => exact fun p => rfl
    | cons bytes commands ih =>
      intro p
      rw [List.foldl_cons, ← ih, applyCommittedEndpoint]
      cases hc : acceptedEndpoint E chainId set key block.header.view bytes with
      | none => rw [List.filterMap_cons_none hc]
      | some cmd =>
        rw [List.filterMap_cons_some hc]
        rfl
  exact hloop block.commands (r, false)

/-- A chain takes the registry through its events. -/
theorem run_chainEvents (s : ChainState) (inputs : List ChainInput) :
    run step s.endpoints (s.chainEvents P E cfg inputs) =
      (run (next P E cfg) s inputs).endpoints := by
  induction inputs generalizing s with
  | nil => rfl
  | cons input inputs ih =>
    have hinput : run step s.endpoints (s.inputEvents P E cfg input) =
        (s.next P E cfg input).endpoints := by
      cases input with
      | setMaxLen maxLen => rfl
      | commit block =>
        have hreconfigured : run step s.endpoints ((blockChange E.toReconfigPrimitives
            cfg.minVEffDelay (cfg.chainId P) s.histories.set block).elim []
              fun change => reconfigEvents change.1 change.2) =
            (s.reconfigure P E cfg block).endpoints := by
          unfold reconfigure
          cases blockChange E.toReconfigPrimitives cfg.minVEffDelay (cfg.chainId P)
            s.histories.set block with
          | none => rfl
          | some change => exact run_reconfigEvents s.endpoints change.1 change.2
        unfold inputEvents blockEvents
        rw [run_append, hreconfigured, run_applyEvents]
        rfl
    rw [chainEvents, run_append, hinput, ih, run_cons]

/-- Over every chain: commands are applied once, lists are sound, counters rise and refusals
leave no trace exactly when no event sets a counter back and no refused command is of a validator
that is not listed. -/
theorem chain_endpoints_lawful_iff (s : ChainState) (hdistinct : s.endpoints.Distinct)
    (hbounded : s.endpoints.Bounded) (inputs : List ChainInput) :
    run step s.endpoints (s.chainEvents P E cfg inputs) =
        (run (next P E cfg) s inputs).endpoints ∧
      (s.endpoints.Lawful (s.chainEvents P E cfg inputs) ↔
        Along step KeepsCounters s.endpoints (s.chainEvents P E cfg inputs)) :=
  ⟨run_chainEvents s inputs, lawful_iff hdistinct hbounded⟩

end ChainState

namespace Sample

/-- Commands in a few bytes that set one endpoint; every signature passes. -/
def publishing : CommitPrimitives :=
  { writing with
    decodeEndpoint := fun body =>
      match body with
      | [validator, seq, id] =>
        some ⟨⟨validator.toNat, seq.toNat, .set [⟨id.toNat, []⟩]⟩, 0⟩
      | _ => none
    endpointVerifies := fun _ _ _ _ => true }

def publish₄ (seq : UInt8) : Bytes := endpointTag ++ [4, seq, 40]

/-- Validator 4 leaves at view 20. -/
def remove₄ : Bytes := reconfigTag ++ [2, 4, 20]

def publishingBlock : Block := blockOn root 10 0 [add₅, publish₄ 1]

def removingBlock : Block := blockOn publishingBlock 14 0 [remove₄]

def replayingBlock : Block := blockOn removingBlock 15 0 [publish₄ 1]

def endpointEventsOf (chain : List Block) : List EndpointEvent :=
  (ChainState.genesis durable).chainEvents timed publishing durable (chain.map .commit)

instance (r : EndpointRegistry) (e : EndpointEvent) : Decidable (r.KeepsCounters e) :=
  match e with
  | .apply _ => inferInstanceAs (Decidable (_ ∨ _ ∧ _))
  | .seed _ _ => inferInstanceAs (Decidable (_ ≠ _ → _ → _ = _))
  | .forget _ => inferInstanceAs (Decidable (_ = _))
  | .setMaxLen _ => inferInstanceAs (Decidable True)

/-- The command of the next number is applied, and the old one is refused. -/
theorem publishing_lawful : (ChainState.genesis durable).endpoints.Lawful
    (endpointEventsOf
      [publishingBlock, blockOn publishingBlock 14 0 [publish₄ 2, publish₄ 1]]) := by
  refine (ChainState.chain_endpoints_lawful_iff (ChainState.genesis durable)
    (EndpointRegistry.distinct_new _) (EndpointRegistry.bounded_new _) _).2.mpr ?_
  decide +kernel

/-- A command takes effect again when its validator has been forgotten, and a refused one lists
its validator. -/
theorem command_replayed :
    ¬ (ChainState.genesis durable).endpoints.Lawful
      (endpointEventsOf [publishingBlock, removingBlock, replayingBlock]) ∧
    ¬ (ChainState.genesis durable).endpoints.Lawful
      (endpointEventsOf [blockOn root 10 0 [publish₄ 0]]) := by
  constructor
  · intro h
    have htwice : taken EndpointRegistry.step EndpointRegistry.effect
        (ChainState.genesis durable).endpoints
        (endpointEventsOf [publishingBlock, removingBlock, replayingBlock]) =
        [⟨4, 1, .set [⟨40, []⟩]⟩, ⟨4, 1, .set [⟨40, []⟩]⟩] := by decide +kernel
    have honce := h.once
    rw [htwice] at honce
    revert honce
    decide
  · intro h
    have hevents : endpointEventsOf [blockOn root 10 0 [publish₄ 0]] =
        [.apply ⟨4, 0, .set [⟨40, []⟩]⟩] := by decide +kernel
    have hatomic := h.atomic
    rw [hevents] at hatomic
    have hget := (hatomic.1 (by decide +kernel)).byValidator 4
    revert hget
    decide +kernel

end Sample

end Boule
