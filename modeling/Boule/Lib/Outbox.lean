import Boule.Lib.Run
import Boule.Lib.Table

/-! Values that stay pending until they are acknowledged in the very form in which they are pending,
and what the last acknowledgement tells of the last value. -/
namespace Boule.Outbox

variable {K V : Type} [DecidableEq K] [DecidableEq V]

/-- What is acknowledged, and then what is posted. -/
structure Round (K V : Type) where
  acks : List (K × V)
  posts : List (K × V)

/-- The last value for the key. -/
def lastOf (es : List (K × V)) (k : K) : Option V := ((es.filter (·.1 = k)).getLast?).map Prod.snd

def settle (t : Table K V) (acks : List (K × V)) : Table K V :=
  acks.foldl (fun t e => if t.get? e.1 = some e.2 then t.erase e.1 else t) t

def post (t : Table K V) (es : List (K × V)) : Table K V :=
  es.foldl (fun t e => t.insert e.1 e.2) t

def next (t : Table K V) (r : Round K V) : Table K V := post (settle t r.acks) r.posts

/-! ### One round -/

omit [DecidableEq V] in
theorem lastOf_append (es : List (K × V)) (e : K × V) (k : K) :
    lastOf (es ++ [e]) k = if e.1 = k then some e.2 else lastOf es k := by
  unfold lastOf
  rw [List.filter_append]
  split_ifs with h
  · simp [h]
  · simp [h]

omit [DecidableEq V] in
theorem lastOf_eq_none {es : List (K × V)} {k : K} (h : lastOf es k = none) (v : V) :
    (k, v) ∉ es := by
  intro hmem
  unfold lastOf at h
  rw [Option.map_eq_none_iff, List.getLast?_eq_none_iff, List.filter_eq_nil_iff] at h
  exact h (k, v) hmem (decide_eq_true rfl)

omit [DecidableEq V] in
theorem get?_post (t : Table K V) (es : List (K × V)) (k : K) :
    (post t es).get? k = (lastOf es k).or (t.get? k) := by
  unfold post
  induction es using List.reverseRecOn with
  | nil => rfl
  | append_singleton es e ih =>
    rw [List.foldl_append, List.foldl_cons, List.foldl_nil, Table.get?_insert, lastOf_append, ih]
    by_cases h : k = e.1
    · rw [if_pos h, if_pos h.symm, Option.some_or]
    · rw [if_neg h, if_neg (Ne.symm h)]

theorem get?_settle_eq_some (t : Table K V) (acks : List (K × V)) (k : K) (v : V) :
    (settle t acks).get? k = some v ↔ t.get? k = some v ∧ (k, v) ∉ acks := by
  unfold settle
  induction acks generalizing t with
  | nil => simp
  | cons e acks ih =>
    rw [List.foldl_cons, ih, List.mem_cons, not_or]
    by_cases hdue : t.get? e.1 = some e.2
    · rw [if_pos hdue, Table.get?_erase]
      by_cases hk : k = e.1
      · rw [if_pos hk]
        have hgone : t.get? k = some v → (k, v) = e := by
          intro hv
          rw [hk, hdue] at hv
          exact Prod.ext hk (Option.some.inj hv).symm
        simp only [reduceCtorEq, false_and, false_iff]
        intro h
        exact h.2.1 (hgone h.1)
      · have hne : (k, v) ≠ e := fun h => hk (congrArg Prod.fst h)
        rw [if_neg hk]
        simp [hne]
    · rw [if_neg hdue]
      have hne : t.get? k = some v → (k, v) ≠ e := by
        intro hv h
        rw [← h] at hdue
        exact hdue hv
      constructor
      · intro h
        exact ⟨h.1, hne h.1, h.2⟩
      · intro h
        exact ⟨h.1, h.2.2⟩

theorem get?_next_eq_some (t : Table K V) (r : Round K V) (k : K) (v : V) :
    (next t r).get? k = some v ↔ lastOf r.posts k = some v ∨
      (lastOf r.posts k = none ∧ t.get? k = some v ∧ (k, v) ∉ r.acks) := by
  unfold next
  rw [get?_post, Option.or_eq_some_iff, get?_settle_eq_some]

/-! ### Many rounds -/

/-- The rounds neither post anything for the key nor acknowledge this value of it. -/
def Quiet (k : K) (v : V) (rounds : List (Round K V)) : Prop :=
  ∀ r ∈ rounds, lastOf r.posts k = none ∧ (k, v) ∉ r.acks

/-- The last value that the rounds post for the key, and no round after that one acknowledges it. -/
def Waiting (k : K) (v : V) (rounds : List (Round K V)) : Prop :=
  ∃ before r after, rounds = before ++ r :: after ∧ lastOf r.posts k = some v ∧ Quiet k v after

omit [DecidableEq V] in
theorem quiet_append {k : K} {v : V} {rounds : List (Round K V)} {r : Round K V} :
    Quiet k v (rounds ++ [r]) ↔ Quiet k v rounds ∧ lastOf r.posts k = none ∧ (k, v) ∉ r.acks := by
  unfold Quiet
  rw [List.forall_mem_append, List.forall_mem_singleton]

omit [DecidableEq V] in
theorem waiting_append {k : K} {v : V} {rounds : List (Round K V)} {r : Round K V} :
    Waiting k v (rounds ++ [r]) ↔ lastOf r.posts k = some v ∨
      (Waiting k v rounds ∧ lastOf r.posts k = none ∧ (k, v) ∉ r.acks) := by
  constructor
  · rintro ⟨before, r', after, hsplit, hpost, hquiet⟩
    rcases List.eq_nil_or_concat after with rfl | ⟨after, last, rfl⟩
    · obtain ⟨-, hr⟩ := List.append_inj' hsplit rfl
      obtain rfl := (List.cons.inj hr).1
      exact .inl hpost
    · rw [List.concat_eq_append] at hsplit hquiet
      rw [← List.cons_append, ← List.append_assoc] at hsplit
      obtain ⟨hrounds, hr⟩ := List.append_inj' hsplit rfl
      obtain rfl := (List.cons.inj hr).1
      obtain ⟨hafter, hlast⟩ := quiet_append.mp hquiet
      exact .inr ⟨⟨before, r', after, hrounds, hpost, hafter⟩, hlast⟩
  · rintro (hpost | ⟨⟨before, r', after, rfl, hpost, hquiet⟩, hlast⟩)
    · exact ⟨rounds, r, [], rfl, hpost, fun _ h => absurd h List.not_mem_nil⟩
    · exact ⟨before, r', after ++ [r], by simp, hpost, quiet_append.mpr ⟨hquiet, hlast⟩⟩

/-- What is pending after some rounds: what they left waiting, and what was pending before and was
not touched. -/
theorem get?_run_eq_some (t : Table K V) (rounds : List (Round K V)) (k : K) (v : V) :
    (run next t rounds).get? k = some v ↔
      Waiting k v rounds ∨ (t.get? k = some v ∧ Quiet k v rounds) := by
  induction rounds using List.reverseRecOn with
  | nil =>
    have hnone : ¬ Waiting k v ([] : List (Round K V)) := by
      rintro ⟨before, r, after, h, -⟩
      cases before <;> cases h
    have hquiet : Quiet k v ([] : List (Round K V)) := fun _ h => absurd h List.not_mem_nil
    simp [hnone, hquiet]
  | append_singleton rounds r ih =>
    rw [run_append, run_cons, run_nil, get?_next_eq_some, ih, waiting_append, quiet_append]
    tauto

theorem waiting_iff (k : K) (v : V) (rounds : List (Round K V)) :
    Waiting k v rounds ↔ (run next ∅ rounds).get? k = some v := by
  rw [get?_run_eq_some, Table.get?_empty]
  simp

/-! ### The last acknowledgement -/

/-- What is pending, what was acknowledged last and what was posted last. -/
structure Books (K V : Type) [DecidableEq K] where
  pending : Table K V
  delivered : K → V
  latest : K → V

namespace Books

/-- What a round leaves for a key: the value that it posts, or else the pending value that it does
not acknowledge, or else the one that was acknowledged last. -/
def standing (s : Books K V) (r : Round K V) (k : K) : V :=
  (lastOf r.posts k).getD (((s.pending.get? k).filter fun v => (k, v) ∉ r.acks).getD
    ((lastOf r.acks k).getD (s.delivered k)))

/-- Some value stays pending for the key that the round does not acknowledge. -/
def Stays (s : Books K V) (r : Round K V) (k : K) : Prop :=
  ∃ v, s.pending.get? k = some v ∧ (k, v) ∉ r.acks

instance (s : Books K V) (r : Round K V) (k : K) : Decidable (s.Stays r k) :=
  decidable_of_iff ((s.pending.get? k).any fun v => (k, v) ∉ r.acks) (by
    unfold Stays
    cases s.pending.get? k <;> simp)

/-- What the round acknowledges last for the key is its latest value, unless another value for the
key stays pending or is posted. -/
def Timely (s : Books K V) (r : Round K V) (k : K) : Prop :=
  ∀ v, lastOf r.acks k = some v → v = s.latest k ∨ lastOf r.posts k ≠ none ∨ s.Stays r k

/-- The value that the round posts for the key, or else the one that it acknowledges last while
nothing else stays pending, or else the latest one. -/
def left (s : Books K V) (r : Round K V) (k : K) : V :=
  (lastOf r.posts k).getD
    (if s.Stays r k then s.latest k else (lastOf r.acks k).getD (s.latest k))

theorem standing_eq (s : Books K V) (r : Round K V) (k : K) :
    ((next s.pending r).get? k).getD ((lastOf r.acks k).getD (s.delivered k)) = s.standing r k := by
  have hnext : (next s.pending r).get? k =
      (lastOf r.posts k).or ((s.pending.get? k).filter fun v => (k, v) ∉ r.acks) := by
    refine Option.ext fun v => ?_
    rw [get?_next_eq_some, Option.or_eq_some_iff, Option.filter_eq_some_iff, decide_eq_true_iff]
  rw [hnext, standing]
  cases lastOf r.posts k <;> rfl

/-- Where the latest value is the pending one, or else the delivered one, what a round leaves needs
no look at what was delivered. -/
theorem standing_eq_left {s : Books K V} {k : K}
    (h : (s.pending.get? k).getD (s.delivered k) = s.latest k) (r : Round K V) :
    s.standing r k = s.left r k := by
  unfold standing left
  refine congrArg _ ?_
  cases hold : s.pending.get? k with
  | none =>
    have hgone : ¬ s.Stays r k := fun ⟨w, hw, _⟩ => nomatch hold.symm.trans hw
    rw [hold, Option.getD_none] at h
    rw [if_neg hgone, Option.filter_none, Option.getD_none, h]
  | some w =>
    rw [hold, Option.getD_some] at h
    by_cases hout : (k, w) ∉ r.acks
    · have hkept : Option.filter (fun v => decide ((k, v) ∉ r.acks)) (some w) = some w := by
        simp [hout]
      rw [hkept, Option.getD_some, if_pos ⟨w, hold, hout⟩]
      exact h
    · have hfiltered : Option.filter (fun v => decide ((k, v) ∉ r.acks)) (some w) = none := by
        simp [not_not.mp hout]
      have hgone : ¬ s.Stays r k := by
        rintro ⟨w', hw', hout'⟩
        obtain rfl := Option.some.inj (hold.symm.trans hw')
        exact hout hout'
      rw [hfiltered, Option.getD_none, if_neg hgone]
      cases hack : lastOf r.acks k with
      | none => exact absurd (not_not.mp hout) (lastOf_eq_none hack w)
      | some v => rfl

theorem left_eq_latest_iff (s : Books K V) (r : Round K V) (k : K) :
    s.left r k = (lastOf r.posts k).getD (s.latest k) ↔ s.Timely r k := by
  unfold left Timely
  cases lastOf r.posts k with
  | some w => exact iff_of_true rfl fun v _ => .inr (.inl nofun)
  | none =>
    rw [Option.getD_none, Option.getD_none]
    split_ifs with hstays
    · exact iff_of_true rfl fun v _ => .inr (.inr hstays)
    · cases lastOf r.acks k with
      | none => exact iff_of_true rfl nofun
      | some v => simp [hstays]

end Books
end Boule.Outbox
