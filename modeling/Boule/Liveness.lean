import Boule.CheckedArith
import Boule.Lib.Tally
import Boule.SignerBitmap
import Boule.ValidatorSet
import Mathlib.Data.List.DropRight

/-! The liveness tracker: in how many of the last views a validator was a member, and in how many
of them it signed. The counts are kept as the window moves. -/
namespace Boule

namespace LivenessTracker

structure Counts where
  memberViews : ℕ
  creditedViews : ℕ
  deriving DecidableEq

namespace Counts

def zero : Counts := ⟨0, 0⟩

def countMember (c : Counts) : Option Counts :=
  (checkedAddU32 c.memberViews 1).map fun n => { c with memberViews := n }

def countCredited (c : Counts) : Option Counts :=
  (checkedAddU32 c.creditedViews 1).map fun n => { c with creditedViews := n }

def dropMember (c : Counts) : Counts := { c with memberViews := c.memberViews - 1 }

def dropCredited (c : Counts) : Counts := { c with creditedViews := c.creditedViews - 1 }

end Counts

structure Observation where
  members : List ValidatorId
  credited : List ValidatorId
  deriving DecidableEq

end LivenessTracker

structure LivenessTracker where
  window : ℕ
  observations : List LivenessTracker.Observation
  counts : Table ValidatorId LivenessTracker.Counts

namespace LivenessTracker
open LivenessTracker.Counts (zero)
open Tally (counter addAll dropAll)

def withWindow (window : ℕ) : LivenessTracker := ⟨max window 1, [], ∅⟩

/-- The counts without an observation. -/
def evict (counts : Table ValidatorId Counts) (old : Observation) : Table ValidatorId Counts :=
  (dropAll Counts.dropCredited (dropAll Counts.dropMember counts old.members) old.credited).retain
    fun _ c => 0 < c.memberViews || 0 < c.creditedViews

/-- The loop of `observe` that takes observations off the front. -/
def shrink (window : ℕ) : List Observation → Table ValidatorId Counts →
    List Observation × Table ValidatorId Counts
  | [], counts => ([], counts)
  | old :: observations, counts =>
    if window < (old :: observations).length then shrink window observations (evict counts old)
    else (old :: observations, counts)

/-- `none` where a `u32` counter overflows. -/
def observe (t : LivenessTracker) (members credited : List ValidatorId) :
    Option LivenessTracker := do
  let counts ← addAll zero Counts.countMember t.counts members
  let credited := credited.filter (members.contains ·)
  let counts ← addAll zero Counts.countCredited counts credited
  let (observations, counts) :=
    shrink t.window (t.observations ++ [⟨members, credited⟩]) counts
  return { t with observations, counts }

def participationPermille (t : LivenessTracker) (validator : ValidatorId) : Option ℕ :=
  match t.counts.get? validator with
  | none => none
  | some c => if c.memberViews = 0 then none else some (c.creditedViews * 1000 / c.memberViews)

/-- `none` where a `u64` overflows. -/
def clusterParticipationPermille (t : LivenessTracker) : Option (Option ℕ) := do
  let credited ← sumU64 (t.counts.toList.map fun e => e.2.creditedViews)
  let member ← sumU64 (t.counts.toList.map fun e => e.2.memberViews)
  if 0 < member then (checkedMulU64 credited 1000).map fun scaled => some (scaled / member)
  else some none

/-- What a call of `observe` passes: members and credited. -/
abbrev Call := List ValidatorId × List ValidatorId

/-- `apply_commit`: the members of the set, and those of them that signed the certificate. -/
def commitCall (set : ValidatorSet) (signers : SignerBitmap) : Call :=
  (set.members, signers.iterSet.filterMap set.get?)

def observeAll (t : LivenessTracker) (calls : List Call) : Option LivenessTracker :=
  calls.foldlM (fun t c => t.observe c.1 c.2) t

/-! ### The recount -/

/-- A call as it is kept. -/
def observation (c : Call) : Observation := ⟨c.1, c.2.filter (c.1.contains ·)⟩

def recent (window : ℕ) (calls : List Call) : List Observation :=
  (calls.map observation).rtake window

def membersIn (observations : List Observation) : List ValidatorId :=
  observations.flatMap Observation.members

def creditedIn (observations : List Observation) : List ValidatorId :=
  observations.flatMap Observation.credited

/-- The counts are those of the observations, and there are no other entries. -/
structure Recounted (t : LivenessTracker) (kept : List Observation) : Prop where
  observations : t.observations = kept
  memberViews : ∀ v, (counter zero t.counts v).memberViews = (membersIn kept).count v
  creditedViews : ∀ v, (counter zero t.counts v).creditedViews = (creditedIn kept).count v
  entries : ∀ v c, t.counts.get? v = some c → 0 < c.memberViews ∨ 0 < c.creditedViews
  members_lt : ∀ v, (membersIn kept).count v < 2 ^ 32
  credited_lt : ∀ v, (creditedIn kept).count v < 2 ^ 32

/-- No validator is listed twice in one of the last calls. -/
def DuplicateFree (window : ℕ) (calls : List Call) : Prop :=
  ∀ c ∈ calls.rtake window, c.1.Nodup ∧ c.2.Nodup

/-- After the calls, the counts are those of the last ones, and for lists without duplicates the
participation is a share. -/
structure Accurate (t : LivenessTracker) (calls : List Call) : Prop where
  counts : ∀ v, counter zero t.counts v =
    ⟨(membersIn (recent t.window calls)).count v, (creditedIn (recent t.window calls)).count v⟩
  entries : ∀ v, (t.counts.get? v).isSome = true →
    v ∈ membersIn (recent t.window calls) ∨ v ∈ creditedIn (recent t.window calls)
  credited_le : DuplicateFree t.window calls → ∀ v,
    (counter zero t.counts v).creditedViews ≤ (counter zero t.counts v).memberViews
  participation : DuplicateFree t.window calls → ∀ v, ∀ p ∈ t.participationPermille v, p ≤ 1000
  cluster : DuplicateFree t.window calls →
    ∃ share, t.clusterParticipationPermille = some share ∧ ∀ p ∈ share, p ≤ 1000

/-- The counters have room for the last call before the oldest one leaves. -/
def CountersFit (window : ℕ) (calls : List Call) : Prop :=
  ∀ v, (membersIn (recent (window + 1) calls)).count v < 2 ^ 32 ∧
    (creditedIn (recent (window + 1) calls)).count v < 2 ^ 32

/-- The sums over all validators have room. -/
def SumsFit (window : ℕ) (calls : List Call) : Prop :=
  DuplicateFree window calls → (membersIn (recent window calls)).length < 2 ^ 64 ∧
    (creditedIn (recent window calls)).length * 1000 < 2 ^ 64

/-! ### Keeping the counts -/

theorem countMember_eq_some {c c' : Counts} (h : c.countMember = some c') :
    c'.memberViews = c.memberViews + 1 ∧ c'.creditedViews = c.creditedViews := by
  unfold Counts.countMember checkedAddU32 at h
  split_ifs at h
  · rw [← Option.some.inj h]
    exact ⟨rfl, rfl⟩
  · cases h

theorem countCredited_eq_some {c c' : Counts} (h : c.countCredited = some c') :
    c'.creditedViews = c.creditedViews + 1 ∧ c'.memberViews = c.memberViews := by
  unfold Counts.countCredited checkedAddU32 at h
  split_ifs at h
  · rw [← Option.some.inj h]
    exact ⟨rfl, rfl⟩
  · cases h

theorem countMember_isSome (c : Counts) :
    c.countMember.isSome = true ↔ c.memberViews + 1 < 2 ^ 32 := by
  unfold Counts.countMember checkedAddU32
  split_ifs with h
  · exact iff_of_true rfl h
  · exact iff_of_false (fun h => by cases h) h

theorem countCredited_isSome (c : Counts) :
    c.countCredited.isSome = true ↔ c.creditedViews + 1 < 2 ^ 32 := by
  unfold Counts.countCredited checkedAddU32
  split_ifs with h
  · exact iff_of_true rfl h
  · exact iff_of_false (fun h => by cases h) h

theorem membersIn_append (kept kept' : List Observation) :
    membersIn (kept ++ kept') = membersIn kept ++ membersIn kept' := List.flatMap_append

theorem creditedIn_append (kept kept' : List Observation) :
    creditedIn (kept ++ kept') = creditedIn kept ++ creditedIn kept' := List.flatMap_append

theorem membersIn_cons (o : Observation) (kept : List Observation) :
    membersIn (o :: kept) = o.members ++ membersIn kept := List.flatMap_cons

theorem creditedIn_cons (o : Observation) (kept : List Observation) :
    creditedIn (o :: kept) = o.credited ++ creditedIn kept := List.flatMap_cons

theorem counter_evict (counts : Table ValidatorId Counts) (old : Observation) (v : ValidatorId) :
    (counter zero (evict counts old) v).memberViews =
        (counter zero counts v).memberViews - old.members.count v ∧
      (counter zero (evict counts old) v).creditedViews =
        (counter zero counts v).creditedViews - old.credited.count v := by
  have hempty : ∀ (j : ValidatorId) (c : Counts),
      (decide (0 < c.memberViews) || decide (0 < c.creditedViews)) = false → c = zero := by
    intro j c hc
    rw [Bool.or_eq_false_iff, decide_eq_false_iff_not, decide_eq_false_iff_not] at hc
    have hm : c.memberViews = 0 := by omega
    have hcr : c.creditedViews = 0 := by omega
    cases c
    exact (Counts.mk.injEq ..).mpr ⟨hm, hcr⟩
  have hmember : (counter zero (dropAll Counts.dropMember counts old.members) v).memberViews =
      (counter zero counts v).memberViews - old.members.count v :=
    Tally.counter_dropAll (f := Counts.memberViews) rfl (fun _ => rfl) _ _ v
  have hmember' : (counter zero (dropAll Counts.dropMember counts old.members) v).creditedViews =
      (counter zero counts v).creditedViews := by
    have hother : ∀ c : Counts, c.dropMember.creditedViews = c.creditedViews := fun _ => rfl
    exact Tally.counter_dropAll_other rfl hother counts old.members v
  have hcredited : (counter zero (dropAll Counts.dropCredited
      (dropAll Counts.dropMember counts old.members) old.credited) v).creditedViews =
      (counter zero (dropAll Counts.dropMember counts old.members) v).creditedViews -
        old.credited.count v :=
    Tally.counter_dropAll (f := Counts.creditedViews) rfl (fun _ => rfl) _ _ v
  have hcredited' : (counter zero (dropAll Counts.dropCredited
      (dropAll Counts.dropMember counts old.members) old.credited) v).memberViews =
      (counter zero (dropAll Counts.dropMember counts old.members) v).memberViews := by
    have hother : ∀ c : Counts, c.dropCredited.memberViews = c.memberViews := fun _ => rfl
    exact Tally.counter_dropAll_other rfl hother _ old.credited v
  unfold evict
  rw [Tally.counter_retain hempty, hcredited, hcredited', hmember, hmember']
  exact ⟨rfl, rfl⟩

theorem membersIn_concat (kept : List Observation) (o : Observation) :
    membersIn (kept ++ [o]) = membersIn kept ++ o.members := by
  have hone : membersIn [o] = o.members := List.append_nil _
  rw [membersIn_append, hone]

theorem creditedIn_concat (kept : List Observation) (o : Observation) :
    creditedIn (kept ++ [o]) = creditedIn kept ++ o.credited := by
  have hone : creditedIn [o] = o.credited := List.append_nil _
  rw [creditedIn_append, hone]

/-- Taking the oldest observation off leaves the counts of the others. -/
theorem Recounted.evict {t : LivenessTracker} {old : Observation} {kept : List Observation}
    (h : t.Recounted (old :: kept)) :
    Recounted ⟨t.window, kept, LivenessTracker.evict t.counts old⟩ kept := by
  have hmembers : ∀ v, (membersIn (old :: kept)).count v =
      old.members.count v + (membersIn kept).count v := by
    intro v
    rw [membersIn_cons, List.count_append]
  have hcredited : ∀ v, (creditedIn (old :: kept)).count v =
      old.credited.count v + (creditedIn kept).count v := by
    intro v
    rw [creditedIn_cons, List.count_append]
  refine ⟨rfl, fun v => ?_, fun v => ?_, fun v c hget => ?_, fun v => ?_, fun v => ?_⟩
  · have hsum := hmembers v
    have hview := h.memberViews v
    have hevict := (counter_evict t.counts old v).1
    simp only
    omega
  · have hsum := hcredited v
    have hview := h.creditedViews v
    have hevict := (counter_evict t.counts old v).2
    simp only
    omega
  · have hkeep := ((Table.get?_retain_eq_some _ _ v c).mp hget).2
    simpa using hkeep
  · have hsum := hmembers v
    have hlt := h.members_lt v
    omega
  · have hsum := hcredited v
    have hlt := h.credited_lt v
    omega

/-- At most one observation too many is taken off. -/
theorem shrink_spec {t : LivenessTracker} {kept : List Observation} (h : t.Recounted kept)
    (hlen : kept.length ≤ t.window + 1) :
    Recounted ⟨t.window, (shrink t.window kept t.counts).1, (shrink t.window kept t.counts).2⟩
      (kept.rtake t.window) := by
  have hstay : ∀ (counts : Table ValidatorId Counts) (kept : List Observation),
      kept.length ≤ t.window → shrink t.window kept counts = (kept, counts) := by
    intro counts kept hle
    cases kept with
    | nil => rfl
    | cons old kept => exact if_neg (by omega)
  have hobservations := h.observations
  by_cases hle : kept.length ≤ t.window
  · have hall : kept.rtake t.window = kept := by
      rw [List.rtake, Nat.sub_eq_zero_of_le hle, List.drop_zero]
    rw [hstay t.counts kept hle, hall]
    rw [← hobservations] at h ⊢
    exact h
  · cases kept with
    | nil => exact absurd (Nat.zero_le _) hle
    | cons old kept =>
      rw [List.length_cons] at hlen hle
      have hone : kept.length = t.window := by omega
      have hrest : (old :: kept).rtake t.window = kept := by
        rw [List.rtake, List.length_cons, hone, Nat.add_sub_cancel_left, List.drop_succ_cons,
          List.drop_zero]
      have hshrink : shrink t.window (old :: kept) t.counts =
          (kept, LivenessTracker.evict t.counts old) := by
        rw [shrink, if_pos (by rw [List.length_cons]; omega), hstay _ kept (by omega)]
      rw [hshrink, hrest]
      exact h.evict

theorem rtake_rtake_succ {α : Type} (l : List α) (n : ℕ) :
    (l.rtake (n + 1)).rtake n = l.rtake n := by
  unfold List.rtake
  rw [List.length_drop, List.drop_drop]
  congr 1
  omega

theorem recent_concat (window : ℕ) (calls : List Call) (c : Call) :
    recent (window + 1) (calls ++ [c]) = recent window calls ++ [observation c] := by
  unfold recent
  rw [List.map_append, List.map_singleton, List.rtake_concat_succ]

theorem length_recent_le (window : ℕ) (calls : List Call) :
    (recent window calls).length ≤ window := by
  unfold recent List.rtake
  rw [List.length_drop]
  omega

theorem countersFit_concat_iff (window : ℕ) (calls : List Call) (c : Call) :
    CountersFit window (calls ++ [c]) ↔ ∀ v,
      (membersIn (recent window calls)).count v + (observation c).members.count v < 2 ^ 32 ∧
        (creditedIn (recent window calls)).count v + (observation c).credited.count v < 2 ^ 32 := by
  unfold CountersFit
  rw [recent_concat, membersIn_concat, creditedIn_concat]
  simp only [List.count_append]

/-- The counts with a call, before anything leaves. -/
def addCall (counts : Table ValidatorId Counts) (c : Call) : Option (Table ValidatorId Counts) :=
  (addAll zero Counts.countMember counts c.1).bind fun counts =>
    addAll zero Counts.countCredited counts (observation c).credited

theorem observe_eq (t : LivenessTracker) (c : Call) : t.observe c.1 c.2 =
    (addCall t.counts c).map fun counts =>
      ⟨t.window, (shrink t.window (t.observations ++ [observation c]) counts).1,
        (shrink t.window (t.observations ++ [observation c]) counts).2⟩ := by
  unfold observe addCall
  cases addAll zero Counts.countMember t.counts c.1 with
  | none => rfl
  | some counts =>
    have hsame : (observation c).credited = c.2.filter (c.1.contains ·) := rfl
    rw [Option.bind_some, hsame]
    cases hadd : addAll zero Counts.countCredited counts (c.2.filter (c.1.contains ·)) with
    | none => simp only [Option.bind_eq_bind, Option.bind_some, hadd, Option.bind_none,
        Option.map_none]
    | some counts' =>
      simp only [Option.bind_eq_bind, Option.bind_some, hadd, Option.map_some]
      rfl

/-- The counters have room for a call exactly when the counts with it stay below `2 ^ 32`. -/
theorem Recounted.addCall_isSome_iff {t : LivenessTracker} {kept : List Observation}
    (h : t.Recounted kept) (c : Call) : (addCall t.counts c).isSome = true ↔
      ∀ v, (membersIn kept).count v + (observation c).members.count v < 2 ^ 32 ∧
        (creditedIn kept).count v + (observation c).credited.count v < 2 ^ 32 := by
  have hsmall : ∀ v, (counter zero t.counts v).memberViews < 2 ^ 32 := by
    intro v
    rw [h.memberViews]
    exact h.members_lt v
  have hmembers : (addAll zero Counts.countMember t.counts c.1).isSome = true ↔ _ :=
    Tally.addAll_isSome_iff (fun _ _ hc => (countMember_eq_some hc).1) countMember_isSome hsmall
  simp only [h.memberViews] at hmembers
  have hkept : (observation c).members = c.1 := rfl
  unfold addCall
  cases hadd : addAll zero Counts.countMember t.counts c.1 with
  | none =>
    rw [hadd] at hmembers
    refine iff_of_false (fun hsome => by cases hsome) fun hall => ?_
    have hnone := hmembers.mpr fun v => (hall v).1
    cases hnone
  | some counts =>
    rw [hadd] at hmembers
    have hfit := hmembers.mp rfl
    have hviews : ∀ v, (counter zero counts v).creditedViews = (creditedIn kept).count v := by
      intro v
      rw [Tally.counter_addAll_other (fun _ _ hc => (countMember_eq_some hc).2) hadd,
        h.creditedViews]
    have hsmall' : ∀ v, (counter zero counts v).creditedViews < 2 ^ 32 := by
      intro v
      rw [hviews]
      exact h.credited_lt v
    have hcredited : (addAll zero Counts.countCredited counts (observation c).credited).isSome =
        true ↔ _ := Tally.addAll_isSome_iff
      (fun _ _ hc => (countCredited_eq_some hc).1) countCredited_isSome hsmall'
    simp only [hviews] at hcredited
    rw [Option.bind_some, hcredited]
    constructor
    · exact fun hall v => ⟨hfit v, hall v⟩
    · exact fun hall v => (hall v).2

theorem Recounted.add {t : LivenessTracker} {kept : List Observation} (h : t.Recounted kept)
    {c : Call} {counts : Table ValidatorId Counts} (hadd : addCall t.counts c = some counts) :
    Recounted ⟨t.window, t.observations ++ [observation c], counts⟩ (kept ++ [observation c]) := by
  have hfit := (h.addCall_isSome_iff c).mp (by rw [hadd, Option.isSome_some])
  have hmembers : membersIn (kept ++ [observation c]) = membersIn kept ++ c.1 :=
    membersIn_concat kept (observation c)
  have hcredited := creditedIn_concat kept (observation c)
  obtain ⟨between, hfirst, hsecond⟩ := Option.bind_eq_some_iff.mp hadd
  refine ⟨by rw [h.observations], fun v => ?_, fun v => ?_, fun v c' hget => ?_, fun v => ?_,
    fun v => ?_⟩
  · have hcount := Tally.counter_addAll (fun _ _ hc => (countMember_eq_some hc).1) hfirst v
    have hsame := Tally.counter_addAll_other (fun _ _ hc => (countCredited_eq_some hc).2) hsecond v
    rw [hmembers, List.count_append]
    simp only
    rw [hsame, hcount, h.memberViews]
  · have hcount := Tally.counter_addAll (fun _ _ hc => (countCredited_eq_some hc).1) hsecond v
    have hsame := Tally.counter_addAll_other (fun _ _ hc => (countMember_eq_some hc).2) hfirst v
    rw [hcredited, List.count_append]
    simp only
    rw [hcount, hsame, h.creditedViews]
  · have hmember : ∀ c c' : Counts, c.countMember = some c' →
        0 < c'.memberViews ∨ 0 < c'.creditedViews := by
      intro c c' hc
      have hcount := (countMember_eq_some hc).1
      omega
    have hcredit : ∀ c c' : Counts, c.countCredited = some c' →
        0 < c'.memberViews ∨ 0 < c'.creditedViews := by
      intro c c' hc
      have hcount := (countCredited_eq_some hc).1
      omega
    exact Tally.get?_addAll hcredit hsecond
      (fun _ _ hbetween => Tally.get?_addAll hmember hfirst h.entries hbetween) hget
  · rw [hmembers, List.count_append]
    exact (hfit v).1
  · rw [hcredited, List.count_append]
    exact (hfit v).2

/-- A call is counted exactly when the counters have room for it. -/
theorem Recounted.observe {t : LivenessTracker} {calls : List Call}
    (h : t.Recounted (recent t.window calls)) (c : Call) :
    ((t.observe c.1 c.2).isSome = true ↔ CountersFit t.window (calls ++ [c])) ∧
      ∀ t', t.observe c.1 c.2 = some t' →
        t'.window = t.window ∧ t'.Recounted (recent t.window (calls ++ [c])) := by
  rw [countersFit_concat_iff, observe_eq, Option.isSome_map]
  refine ⟨h.addCall_isSome_iff c, fun t' ht' => ?_⟩
  obtain ⟨counts, hadd, rfl⟩ := Option.map_eq_some_iff.mp ht'
  have hlen : (recent t.window calls ++ [observation c]).length ≤ t.window + 1 := by
    have hle := length_recent_le t.window calls
    rw [List.length_append, List.length_singleton]
    omega
  have hshrunk := shrink_spec (h.add hadd) hlen
  have hlast : (recent t.window calls ++ [observation c]).rtake t.window =
      recent t.window (calls ++ [c]) := by
    rw [← recent_concat]
    exact rtake_rtake_succ _ _
  rw [hlast] at hshrunk
  rw [h.observations]
  exact ⟨rfl, hshrunk⟩

/-! ### Over all calls -/

theorem observeAll_concat (t : LivenessTracker) (calls : List Call) (c : Call) :
    t.observeAll (calls ++ [c]) = (t.observeAll calls).bind fun t => t.observe c.1 c.2 := by
  unfold observeAll
  rw [List.foldlM_append]
  cases calls.foldlM (fun t (c : Call) => t.observe c.1 c.2) t with
  | none => rfl
  | some t => exact bind_pure (t.observe c.1 c.2)

theorem forall_take_concat {α : Type} {P : List α → Prop} (l : List α) (a : α) :
    (∀ k, P ((l ++ [a]).take k)) ↔ (∀ k, P (l.take k)) ∧ P (l ++ [a]) := by
  constructor
  · intro h
    refine ⟨fun k => ?_, ?_⟩
    · have hk := h (min k l.length)
      rw [List.take_append_of_le_length (Nat.min_le_right ..)] at hk
      rwa [← List.take_eq_take_min] at hk
    · have hall := h (l ++ [a]).length
      rwa [List.take_length] at hall
  · rintro ⟨hl, hall⟩ k
    rcases Nat.lt_or_ge l.length k with hlt | hle
    · rw [List.take_of_length_le (by rw [List.length_append, List.length_singleton]; omega)]
      exact hall
    · rw [List.take_append_of_le_length hle]
      exact hl k

/-- The tracker takes all calls exactly when the counters always have room, and then its counts are
those of the last ones. -/
theorem observeAll_spec (window : ℕ) (calls : List Call) :
    (((withWindow window).observeAll calls).isSome = true ↔
        ∀ k, CountersFit (max window 1) (calls.take k)) ∧
      ∀ t, (withWindow window).observeAll calls = some t →
        t.window = max window 1 ∧ t.Recounted (recent (max window 1) calls) := by
  induction calls using List.reverseRecOn with
  | nil =>
    have hnone : ∀ n, recent n [] = [] := fun _ => List.rtake_nil _
    have hcount : ∀ v, (membersIn []).count v < 2 ^ 32 ∧ (creditedIn []).count v < 2 ^ 32 :=
      fun _ => ⟨Nat.two_pow_pos 32, Nat.two_pow_pos 32⟩
    refine ⟨iff_of_true rfl fun k v => ?_, fun t ht => ?_⟩
    · rw [List.take_nil, hnone]
      exact hcount v
    · have hstart : withWindow window = t := Option.some.inj ht
      rw [hnone, ← hstart]
      refine ⟨rfl, rfl, fun _ => rfl, fun _ => rfl, fun v c hget => ?_, fun v => (hcount v).1,
        fun v => (hcount v).2⟩
      have hempty : (∅ : Table ValidatorId Counts).get? v = some c := hget
      rw [Table.get?_empty] at hempty
      cases hempty
  | append_singleton calls c ih =>
    obtain ⟨hsome, hspec⟩ := ih
    rw [observeAll_concat, forall_take_concat, ← hsome]
    cases hcalls : (withWindow window).observeAll calls with
    | none =>
      exact ⟨iff_of_false (fun h => by cases h) (fun h => by cases h.1), fun t ht => by cases ht⟩
    | some t =>
      obtain ⟨hwindow, hrecounted⟩ := hspec t hcalls
      rw [← hwindow] at hrecounted
      have hobserve := hrecounted.observe c
      rw [hwindow] at hobserve
      rw [Option.bind_some, hobserve.1]
      exact ⟨(and_iff_right rfl).symm, hobserve.2⟩

/-! ### Participation -/

theorem sum_counts {t : LivenessTracker} {kept : List Observation} (h : t.Recounted kept) :
    (t.counts.toList.map fun e => e.2.memberViews).sum = (membersIn kept).length ∧
      (t.counts.toList.map fun e => e.2.creditedViews).sum = (creditedIn kept).length :=
  ⟨Tally.sumOf_eq_length (f := Counts.memberViews) rfl h.memberViews,
    Tally.sumOf_eq_length (f := Counts.creditedViews) rfl h.creditedViews⟩

/-- A list without duplicates that is filtered by another one adds no more than that one has. -/
theorem count_credited_le {c : Call} (hcredited : c.2.Nodup) (v : ValidatorId) :
    (observation c).credited.count v ≤ (observation c).members.count v := by
  have hnodup : (c.2.filter (c.1.contains ·)).Nodup := hcredited.filter _
  have hone := List.nodup_iff_count_le_one.mp hnodup v
  by_cases hv : v ∈ c.2.filter (c.1.contains ·)
  · have hmem : v ∈ c.1 := List.contains_iff_mem.mp (List.mem_filter.mp hv).2
    have hpos := List.count_pos_iff.mpr hmem
    exact hone.trans hpos
  · have hzero : (observation c).credited.count v = 0 := List.count_eq_zero.mpr hv
    rw [hzero]
    exact Nat.zero_le _

/-- Nobody is credited for more views than it was a member in. -/
theorem count_creditedIn_le {calls : List Call} (h : ∀ c ∈ calls, c.1.Nodup ∧ c.2.Nodup)
    (v : ValidatorId) :
    (creditedIn (calls.map observation)).count v ≤ (membersIn (calls.map observation)).count v := by
  induction calls with
  | nil => exact Nat.le_refl _
  | cons c calls ih =>
    have hfirst := count_credited_le (h c (List.mem_cons_self ..)).2 v
    have hrest := ih fun c hc => h c (List.mem_cons_of_mem _ hc)
    rw [List.map_cons, creditedIn_cons, membersIn_cons, List.count_append, List.count_append]
    omega

theorem length_creditedIn_le {calls : List Call} (h : ∀ c ∈ calls, c.1.Nodup ∧ c.2.Nodup) :
    (creditedIn (calls.map observation)).length ≤ (membersIn (calls.map observation)).length := by
  have hsub : (creditedIn (calls.map observation)).Subperm (membersIn (calls.map observation)) :=
    List.subperm_iff_count.mpr (count_creditedIn_le h)
  exact hsub.length_le

theorem recent_eq (window : ℕ) (calls : List Call) :
    recent window calls = (calls.rtake window).map observation := by
  unfold recent List.rtake
  rw [List.length_map, List.map_drop]

theorem permille_le {credited member : ℕ} (h : credited ≤ member) :
    credited * 1000 / member ≤ 1000 := by
  rcases Nat.eq_zero_or_pos member with hzero | hpos
  · rw [hzero, Nat.div_zero]
    exact Nat.zero_le _
  · exact Nat.div_le_of_le_mul (Nat.mul_le_mul_right 1000 h)

theorem cluster_eq_iff {t : LivenessTracker} {kept : List Observation} (h : t.Recounted kept)
    (hle : (creditedIn kept).length ≤ (membersIn kept).length) :
    (∃ share, t.clusterParticipationPermille = some share ∧ ∀ p ∈ share, p ≤ 1000) ↔
      (membersIn kept).length < 2 ^ 64 ∧ (creditedIn kept).length * 1000 < 2 ^ 64 := by
  obtain ⟨hmember, hcredited⟩ := sum_counts h
  unfold clusterParticipationPermille
  rw [sumU64_eq, sumU64_eq, hmember, hcredited]
  by_cases hfit : (creditedIn kept).length < 2 ^ 64
  · rw [if_pos hfit, Option.bind_eq_bind, Option.bind_some]
    by_cases hroom : (membersIn kept).length < 2 ^ 64
    · rw [if_pos hroom, Option.bind_some]
      by_cases hpos : 0 < (membersIn kept).length
      · rw [if_pos hpos]
        unfold checkedMulU64
        by_cases hscaled : (creditedIn kept).length * 1000 < 2 ^ 64
        · rw [if_pos hscaled, Option.map_some]
          refine iff_of_true ⟨_, rfl, fun p hp => ?_⟩ ⟨hroom, hscaled⟩
          rw [← Option.some.inj hp]
          exact permille_le hle
        · rw [if_neg hscaled, Option.map_none]
          refine iff_of_false ?_ fun h => hscaled h.2
          rintro ⟨share, hnone, -⟩
          cases hnone
      · rw [if_neg hpos]
        exact iff_of_true ⟨none, rfl, fun p hp => by cases hp⟩ ⟨hroom, by omega⟩
    · rw [if_neg hroom, Option.bind_none]
      refine iff_of_false ?_ fun h => hroom h.1
      rintro ⟨share, hnone, -⟩
      cases hnone
  · rw [if_neg hfit, Option.bind_eq_bind, Option.bind_none]
    refine iff_of_false ?_ fun h => hfit (by omega)
    rintro ⟨share, hnone, -⟩
    cases hnone

theorem Recounted.accurate_iff {t : LivenessTracker} {calls : List Call}
    (h : t.Recounted (recent t.window calls)) :
    t.Accurate calls ↔ SumsFit t.window calls := by
  have hcounts : ∀ v, counter zero t.counts v = ⟨(membersIn (recent t.window calls)).count v,
      (creditedIn (recent t.window calls)).count v⟩ := by
    intro v
    rw [← h.memberViews, ← h.creditedViews]
  have hle : DuplicateFree t.window calls → ∀ v,
      (counter zero t.counts v).creditedViews ≤ (counter zero t.counts v).memberViews := by
    intro hnodup v
    have hv := count_creditedIn_le hnodup v
    rwa [h.creditedViews, h.memberViews, recent_eq]
  have hcluster : DuplicateFree t.window calls →
      ((∃ share, t.clusterParticipationPermille = some share ∧ ∀ p ∈ share, p ≤ 1000) ↔
        (membersIn (recent t.window calls)).length < 2 ^ 64 ∧
          (creditedIn (recent t.window calls)).length * 1000 < 2 ^ 64) := by
    intro hnodup
    have hlen := length_creditedIn_le hnodup
    rw [← recent_eq] at hlen
    exact cluster_eq_iff h hlen
  constructor
  · exact fun haccurate hnodup => (hcluster hnodup).mp (haccurate.cluster hnodup)
  · refine fun hsums => ⟨hcounts, fun v hsome => ?_, hle, fun hnodup v p hp => ?_,
      fun hnodup => (hcluster hnodup).mpr (hsums hnodup)⟩
    · obtain ⟨c, hget⟩ := Option.isSome_iff_exists.mp hsome
      have hc : counter zero t.counts v = c := by rw [counter, hget, Option.getD_some]
      have hv := (hcounts v).symm.trans hc
      rcases h.entries v c hget with hpos | hpos
      · refine Or.inl (List.count_pos_iff.mp ?_)
        rw [← hv] at hpos
        exact hpos
      · refine Or.inr (List.count_pos_iff.mp ?_)
        rw [← hv] at hpos
        exact hpos
    · have hv := hle hnodup v
      unfold participationPermille at hp
      unfold counter at hv
      cases hget : t.counts.get? v with
      | none =>
        rw [hget] at hp
        cases hp
      | some c =>
        rw [hget] at hp hv
        simp only at hp
        split_ifs at hp
        · cases hp
        · rw [← Option.some.inj hp]
          exact permille_le hv

/-- Over all calls the tracker is accurate exactly when, at each of them, no validator occurs
`2 ^ 32` times in the window and the call before it, and the sums over all validators fit. -/
theorem accurate_after_calls_iff (window : ℕ) (calls : List Call) :
    (∀ k, ∃ t, (withWindow window).observeAll (calls.take k) = some t ∧
        t.Accurate (calls.take k)) ↔
      ∀ k, CountersFit (max window 1) (calls.take k) ∧
        SumsFit (max window 1) (calls.take k) := by
  constructor
  · intro h k
    obtain ⟨t, ht, haccurate⟩ := h k
    obtain ⟨hsome, hspec⟩ := observeAll_spec window (calls.take k)
    obtain ⟨hwindow, hrecounted⟩ := hspec t ht
    have hfit := hsome.mp (by rw [ht, Option.isSome_some]) k
    rw [List.take_take, Nat.min_self] at hfit
    rw [← hwindow] at hrecounted
    have hsums := hrecounted.accurate_iff.mp haccurate
    rw [hwindow] at hsums
    exact ⟨hfit, hsums⟩
  · intro h k
    obtain ⟨hsome, hspec⟩ := observeAll_spec window (calls.take k)
    have hfit : ∀ j, CountersFit (max window 1) ((calls.take k).take j) := by
      intro j
      rw [List.take_take]
      exact (h (min j k)).1
    obtain ⟨t, ht⟩ := Option.isSome_iff_exists.mp (hsome.mpr hfit)
    obtain ⟨hwindow, hrecounted⟩ := hspec t ht
    rw [← hwindow] at hrecounted
    have hsums := (h k).2
    rw [← hwindow] at hsums
    exact ⟨t, ht, hrecounted.accurate_iff.mpr hsums⟩

/-- What a commit passes has no duplicates. -/
theorem nodup_commitCall (set : ValidatorSet) (signers : SignerBitmap) :
    (commitCall set signers).1.Nodup ∧ (commitCall set signers).2.Nodup := by
  refine ⟨set.nodup_members, ?_⟩
  refine List.Nodup.filterMap (fun i j v hi hj => ?_) signers.nodup_iterSet
  have hindex := (set.indexOf_eq_some_iff v i).mpr hi
  exact Option.some.inj (hindex.symm.trans ((set.indexOf_eq_some_iff v j).mpr hj))

end LivenessTracker

namespace Sample
open LivenessTracker

theorem count_membersIn_replicate (o : Observation) (v : ValidatorId) (n : ℕ) :
    (membersIn (List.replicate n o)).count v = n * o.members.count v := by
  induction n with
  | zero => rw [List.replicate_zero, Nat.zero_mul]; rfl
  | succ n ih =>
    rw [List.replicate_succ, membersIn_cons, List.count_append, ih, Nat.succ_mul, Nat.add_comm]

/-- One validator is the only member in `2 ^ 32` views, and the window is as long. -/
theorem member_counter_overflows :
    ¬ ∃ t, (withWindow (2 ^ 32)).observeAll (List.replicate (2 ^ 32) ([7], [])) = some t ∧
      t.Accurate (List.replicate (2 ^ 32) ([7], [])) := by
  rintro ⟨t, ht, -⟩
  have hsome := (observeAll_spec (2 ^ 32) (List.replicate (2 ^ 32) ([7], []))).1.mp
    (by rw [ht, Option.isSome_some]) (2 ^ 32)
  have hlt := (hsome 7).1
  have hall : recent (max (2 ^ 32) 1 + 1) ((List.replicate (2 ^ 32) ([7], [])).take (2 ^ 32)) =
      List.replicate (2 ^ 32) (observation ([7], [])) := by
    rw [List.take_replicate, Nat.min_self, recent, List.map_replicate, List.rtake,
      List.length_replicate, Nat.sub_eq_zero_of_le (by decide), List.drop_zero]
  have hone : (observation ([7], [])).members.count 7 = 1 := rfl
  rw [hall, count_membersIn_replicate, hone, Nat.mul_one] at hlt
  exact Nat.lt_irrefl _ hlt

end Sample

end Boule
