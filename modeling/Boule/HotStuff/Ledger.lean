import Boule.HotStuff.Network

/-! Certified headers, and the invariants of a replica and of the log that agreement rests on. -/
namespace Boule

/-- Zero without a lock. -/
def HotStuffState.lockView (s : HotStuffState) : ℕ := (s.locked.map Locked.view).getD 0

/-- The candidate is higher than the lock exactly if it is from a later view. -/
def AcceptCall.LockRanked (P : Primitives) (call : AcceptCall) : Prop :=
  ∀ l ∈ call.1.lockCandidate P call.2, call.1.lockedHeight < l.height ↔ call.1.lockView < l.view

/-- The condition under which a delivery keeps the lock sound. -/
def LocksByView (P : Primitives) (net : Net) (d : Delivery) : Prop :=
  ∀ call ∈ (net.cores d.node).stepCalls P d.order d.event,
    call.LockRanked P ∧ call.1.HasRoomFor P call.2.block

instance (P : Primitives) (call : AcceptCall) : Decidable (call.LockRanked P) :=
  inferInstanceAs (Decidable (∀ l ∈ call.1.lockCandidate P call.2, _))

instance (P : Primitives) (net : Net) (d : Delivery) : Decidable (LocksByView P net d) :=
  inferInstanceAs (Decidable (∀ call ∈ (net.cores d.node).stepCalls P d.order d.event, _))

namespace Agreement

section
variable {P : Primitives} (U : HeaderPool P) (vs : ValidatorSet) (byz : Finset ValidatorId)

/-- Some certificate for the header is backed by the log. -/
structure Certified (log : NetLog) (x : BlockHeader) : Prop where
  mem : x ∈ U.headers
  view_pos : 0 < x.view
  qc : ∃ qc, qc.view = x.view ∧ qc.blockHash = P.headerHash x ∧ Backed vs byz log qc

/-- The genesis header, and headers over a known header that is genesis or certified. -/
inductive Known (log : NetLog) : BlockHeader → Prop
  | genesis : Known log U.genesis.header
  | child {x y : BlockHeader} (known : Known log y) (parent : U.Parent x y)
      (height_eq : x.height = y.height + 1) (view_lt : y.view < x.view)
      (certified : y = U.genesis.header ∨ Certified U vs byz log y) : Known log x

end

variable {P : Primitives} {U : HeaderPool P} {vs : ValidatorSet} {byz : Finset ValidatorId}

theorem Certified.mono {log log' : NetLog} (hsub : ∀ e ∈ log, e ∈ log') {x : BlockHeader}
    (h : Certified U vs byz log x) : Certified U vs byz log' x := by
  obtain ⟨qc, hv, hh, hb⟩ := h.qc
  exact ⟨h.mem, h.view_pos, qc, hv, hh, hb.mono hsub⟩

theorem Known.mono {log log' : NetLog} (hsub : ∀ e ∈ log, e ∈ log') {x : BlockHeader}
    (h : Known U vs byz log x) : Known U vs byz log' x := by
  induction h with
  | genesis => exact .genesis
  | child _ hp hh hv hc ih => exact .child ih hp hh hv (hc.imp_right (Certified.mono hsub))

theorem Known.mem {log : NetLog} {x : BlockHeader} (h : Known U vs byz log x) :
    x ∈ U.headers := by
  cases h with
  | genesis => exact U.genesis_mem
  | child _ hp _ _ _ => exact hp.child_mem

theorem Known.extends_genesis {log : NetLog} {x : BlockHeader} (h : Known U vs byz log x) :
    U.Extends x U.genesis.header := by
  induction h with
  | genesis => exact .refl
  | child _ hp _ _ _ ih => exact .head hp ih

theorem Known.eq_genesis_of_view {log : NetLog} {x : BlockHeader} (h : Known U vs byz log x)
    (hv : x.view = 0) : x = U.genesis.header := by
  cases h with
  | genesis => rfl
  | child _ _ _ hlt _ => omega

theorem Known.eq_genesis_or_parent {log : NetLog} {x : BlockHeader} (h : Known U vs byz log x) :
    x = U.genesis.header ∨ ∃ y, U.Parent x y ∧ Known U vs byz log y := by
  cases h with
  | genesis => exact .inl rfl
  | child hy hp _ _ _ => exact .inr ⟨_, hp, hy⟩

/-- The parent of a known header, with what is known of it. -/
theorem Known.parent {log : NetLog} {x y : BlockHeader} (h : Known U vs byz log x)
    (hp : U.Parent x y) : Known U vs byz log y ∧ x.height = y.height + 1 ∧ y.view < x.view ∧
      (y = U.genesis.header ∨ Certified U vs byz log y) := by
  cases h with
  | genesis => exact absurd hp (HeaderPool.not_parent_genesis y)
  | child hk hp' hh hv hc =>
    obtain rfl := hp'.unique hp
    exact ⟨hk, hh, hv, hc⟩

/-! ### What a replica keeps -/

variable (U vs byz)

/-- Once `i` has voted for a grandchild of `z`, its lock is at least as recent as `z`, or more
recent than a block that `i` committed at the height of `z`. -/
def VotesLocked (i : ValidatorId) (log : NetLog) (lockView : ℕ) : Prop :=
  ∀ v x y z, (i, .broadcast (.vote v)) ∈ log → P.headerHash x = v.blockHash →
    U.Parent x y → U.Parent y z → 0 < z.view → z.view ≤ lockView ∨
      ∃ d, (i, .commit d) ∈ log ∧ d.header.height = z.height ∧ d.header.view + 1 ≤ lockView

structure NodeOk (i : ValidatorId) (log : NetLog) (s : HotStuffState) : Prop where
  keyed : ∀ {h b}, s.getPending h = some b → P.headerHash b.header = h
  known : ∀ {h b}, s.getPending h = some b → Known U vs byz log b.header
  rooted : ∀ {h b}, s.getPending h = some b → b.header = U.genesis.header ∨
    (∃ q, s.getPending b.header.parentHash = some q) ∨
      ∃ d, (i, .commit d) ∈ log ∧ d.header.height + 1 = b.header.height ∧
        d.header.view + 1 ≤ s.lockView
  lock : ∀ {l}, s.locked = some l → ∃ x, P.headerHash x = l.blockHash ∧ x.view = l.view ∧
    Known U vs byz log x ∧ (x = U.genesis.header ∨ Certified U vs byz log x)
  votes_le : ∀ {v}, (i, .broadcast (.vote v)) ∈ log → v.view ≤ s.lastVotedView
  votes_locked : VotesLocked U i log s.lockView

/-- A vote follows the voter's earlier votes and respects the lock they left. -/
structure VoteOk (i : ValidatorId) (log : NetLog) (v : Vote) (x y : BlockHeader) (l : ℕ) :
    Prop where
  hash_eq : P.headerHash x = v.blockHash
  view_eq : x.view = v.view
  known : Known U vs byz log x
  parent : U.Parent x y
  later : ∀ {v'}, (i, .broadcast (.vote v')) ∈ log → v'.view < v.view
  safe : l = 0 ∨ (∃ a, Certified U vs byz log a ∧ U.Extends x a ∧ a.view = l) ∨ l < y.view
  locked : VotesLocked U i log l

/-- A committed header has a certified grandchild, in consecutive views. -/
structure CommitOk (log : NetLog) (d b₂ b₃ : BlockHeader) : Prop where
  parent₃ : U.Parent b₃ b₂
  parent₂ : U.Parent b₂ d
  view₂ : b₂.view = d.view + 1
  view₃ : b₃.view = b₂.view + 1
  known : Known U vs byz log b₃
  certified : Certified U vs byz log b₃

/-- What every entry of the log says about the entries before it. -/
def EntryOk (log : NetLog) : ValidatorId × Action → Prop
  | (i, .broadcast (.vote v)) => ∃ x y l, VoteOk U vs byz i log v x y l
  | (_, .commit d) => ∃ b₂ b₃, CommitOk U vs byz log d.header b₂ b₃
  | _ => True

def LogOk (log : NetLog) : Prop :=
  ∀ pre e post, log = pre ++ e :: post → EntryOk U vs byz pre e

variable {U vs byz}

theorem LogOk.nil : LogOk U vs byz [] := by
  intro pre e post h
  simp at h

theorem LogOk.concat {log : NetLog} {e : ValidatorId × Action} (h : LogOk U vs byz log)
    (he : EntryOk U vs byz log e) : LogOk U vs byz (log ++ [e]) := by
  intro pre e' post heq
  rcases List.eq_nil_or_concat post with rfl | ⟨post', e'', rfl⟩
  · obtain ⟨rfl, h'⟩ := List.append_inj' heq rfl
    obtain rfl := List.singleton_inj.mp h'
    exact he
  · rw [List.concat_eq_append, ← List.cons_append, ← List.append_assoc] at heq
    exact h _ _ _ (List.append_inj' heq rfl).1

theorem LogOk.append_persist {log new : NetLog} (h : LogOk U vs byz log)
    (hnew : ∀ e ∈ new, ∃ u, e.2 = .persist u) : LogOk U vs byz (log ++ new) := by
  induction new generalizing log with
  | nil => rwa [List.append_nil]
  | cons e new ih =>
    have he : EntryOk U vs byz log e := by
      obtain ⟨u, hu⟩ := hnew e (List.mem_cons_self ..)
      obtain ⟨i, a⟩ := e
      obtain rfl : a = .persist u := hu
      trivial
    rw [← List.singleton_append, ← List.append_assoc]
    exact ih (h.concat he) fun e' he' => hnew e' (List.mem_cons_of_mem _ he')

theorem CommitOk.mono {log log' : NetLog} (hsub : ∀ e ∈ log, e ∈ log') {d b₂ b₃ : BlockHeader}
    (h : CommitOk U vs byz log d b₂ b₃) : CommitOk U vs byz log' d b₂ b₃ :=
  { h with
    known := h.known.mono hsub
    certified := h.certified.mono hsub }

theorem VotesLocked.mono {i : ValidatorId} {log : NetLog} {l l' : ℕ}
    (h : VotesLocked U i log l) (hl : l ≤ l') : VotesLocked U i log l' := by
  intro v x y z hv hx hy hz hpos
  rcases h v x y z hv hx hy hz hpos with hle | ⟨d, hd, hh, hdl⟩
  · exact .inl (hle.trans hl)
  · exact .inr ⟨d, hd, hh, hdl.trans hl⟩

/-- The header a certificate of a justified proposal names, once its block is pending. -/
theorem known_of_justified {log : NetLog} {i : ValidatorId} {s : HotStuffState} {p : Proposal}
    (hs : NodeOk U vs byz i log s) (hj : Justified U vs byz log p)
    (hp : s.pendingBlocks.containsKey p.block.header.parentHash = true) :
    ∃ q, U.ProposedOn p q ∧ Known U vs byz log p.block.header ∧
      (0 < q.view → Certified U vs byz log q) := by
  obtain ⟨q, hq, hon, hv⟩ := hj.parent
  obtain ⟨qb, hqb⟩ := (Table.containsKey_iff _ _).mp hp
  have hk : Known U vs byz log qb.header := hs.known hqb
  have heq : qb.header = q :=
    U.hash_injective _ hk.mem _ hq ((hs.keyed hqb).trans hon.parent.hash_eq)
  rw [heq] at hk
  have hc : 0 < q.view → Certified U vs byz log q := fun hpos =>
    ⟨hq, hpos, p.justify, hon.justify_view, hon.justify_hash,
      hj.backed (hon.justify_view ▸ hpos)⟩
  refine ⟨q, hon, .child hk hon.parent hon.height_eq hv ?_, hc⟩
  rcases Nat.eq_zero_or_pos q.view with h0 | hpos
  · exact .inl (hk.eq_genesis_of_view h0)
  · exact .inr (hc hpos)

/-- Inserting the block of a justified proposal keeps the invariant. -/
theorem NodeOk.insertPending {log : NetLog} {i : ValidatorId} {s : HotStuffState} {p : Proposal}
    (hs : NodeOk U vs byz i log s) (hk : Known U vs byz log p.block.header)
    (hp : s.pendingBlocks.containsKey p.block.header.parentHash = true)
    (hr : s.HasRoomFor P p.block) : NodeOk U vs byz i log (s.insertPending P p.block) := by
  have hget := hr.getPending_insertPending
  refine ⟨fun {h b} hb => ?_, fun {h b} hb => ?_, fun {h b} hb => ?_, fun hl => ?_, fun hv => ?_,
    ?_⟩
  · rcases HotStuffState.getPending_of_insertPending hb with ⟨rfl, rfl⟩ | hb
    · rfl
    · exact hs.keyed hb
  · rcases HotStuffState.getPending_of_insertPending hb with ⟨rfl, rfl⟩ | hb
    · exact hk
    · exact hs.known hb
  · have hmono : ∀ {h b}, s.getPending h = some b →
        ∃ q, (s.insertPending P p.block).getPending h = some q := by
      intro h b hb
      rw [hget]
      split_ifs
      · exact ⟨_, rfl⟩
      · exact ⟨b, hb⟩
    have hlv : (s.insertPending P p.block).lockView = s.lockView := by
      simp [HotStuffState.lockView]
    rcases HotStuffState.getPending_of_insertPending hb with ⟨rfl, rfl⟩ | hb
    · obtain ⟨q, hq⟩ := (Table.containsKey_iff _ _).mp hp
      exact .inr (.inl (hmono hq))
    · rw [hlv]
      rcases hs.rooted hb with hg | ⟨q, hq⟩ | hd
      · exact .inl hg
      · exact .inr (.inl (hmono hq))
      · exact .inr (.inr hd)
  · exact hs.lock (by simpa using hl)
  · simpa using hs.votes_le hv
  · simpa [HotStuffState.lockView] using hs.votes_locked

end Agreement

end Boule
