import Boule.CheckedArith
import Boule.Lib.FallibleRun
import Boule.Lib.Permits

/-! The connection and handshake limiters of the transport. Their calls are taken one after the
other: each holds the lock of the map while it reads or changes it, and a release updates the total
before it takes the lock. `usize` is 64 bits wide. -/
namespace Boule

inductive IpAddr
  | v4 (octets : BitVec 32)
  | v6 (octets : BitVec 128)
  deriving DecidableEq

inductive Direction
  | inbound
  | outbound
  deriving DecidableEq

/-- `AtomicU64::fetch_add` and `AtomicUsize::fetch_add` wrap. -/
def fetchAddOne (n : ℕ) : ℕ := addU64 n 1

/-- `saturating_add` on `usize`. -/
def saturatingAddUsize (a b : ℕ) : ℕ := min (a + b) (2 ^ 64 - 1)

/-- `*per_ip.entry(ip).or_insert(0) += 1`; `none` where the count overflows. -/
def addPermit (perIp : Table IpAddr ℕ) (ip : IpAddr) : Option (Table IpAddr ℕ) :=
  (checkedAddU64 (Tally.counter 0 perIp ip) 1).map fun count => perIp.insert ip count

theorem addPermit_eq_some {perIp perIp' : Table IpAddr ℕ} {ip : IpAddr} :
    addPermit perIp ip = some perIp' ↔ Tally.counter 0 perIp ip + 1 < 2 ^ 64 ∧
      perIp' = perIp.insert ip (Tally.counter 0 perIp ip + 1) := by
  unfold addPermit checkedAddU64
  split_ifs with h
  · rw [Option.map_some, Option.some_inj, and_iff_right h]
    exact eq_comm
  · rw [Option.map_none]
    exact iff_of_false (fun he => by cases he) fun hr => h hr.1

theorem addPermit_of_lt {perIp : Table IpAddr ℕ} {ip : IpAddr}
    (h : Tally.counter 0 perIp ip + 1 < 2 ^ 64) :
    addPermit perIp ip = some (perIp.insert ip (Tally.counter 0 perIp ip + 1)) :=
  addPermit_eq_some.mpr ⟨h, rfl⟩

/-! ### Connections -/

structure ConnectionLimitsConfig where
  maxInbound : ℕ
  maxOutbound : ℕ
  maxPerIp : ℕ
  maxTotal : ℕ
  maxInbound_lt : maxInbound < 2 ^ 64
  maxOutbound_lt : maxOutbound < 2 ^ 64
  maxPerIp_lt : maxPerIp < 2 ^ 64
  maxTotal_lt : maxTotal < 2 ^ 64

/-- `production_defaults` -/
def ConnectionLimitsConfig.productionDefaults : ConnectionLimitsConfig where
  maxInbound := 512
  maxOutbound := 64
  maxPerIp := 8
  maxTotal := 2 ^ 64 - 1
  maxInbound_lt := by decide
  maxOutbound_lt := by decide
  maxPerIp_lt := by decide
  maxTotal_lt := by decide

inductive RejectReason
  | totalInbound
  | totalOutbound
  | perIp
  | total
  deriving DecidableEq

structure ConnectionLimiter where
  config : ConnectionLimitsConfig
  inbound : ℕ
  outbound : ℕ
  perIp : Table IpAddr ℕ
  rejects : ℕ

namespace ConnectionLimiter

def new (config : ConnectionLimitsConfig) : ConnectionLimiter where
  config := config
  inbound := 0
  outbound := 0
  perIp := ∅
  rejects := 0

/-- The count of a direction. -/
def active (l : ConnectionLimiter) : Direction → ℕ
  | .inbound => l.inbound
  | .outbound => l.outbound

/-- The count of a direction is set. -/
def setActive (l : ConnectionLimiter) : Direction → ℕ → ConnectionLimiter
  | .inbound, n => { l with inbound := n }
  | .outbound, n => { l with outbound := n }

def rejected (l : ConnectionLimiter) : ConnectionLimiter :=
  { l with rejects := fetchAddOne l.rejects }

/-- A connection is counted; `none` where the count of its address overflows. -/
def admitted (l : ConnectionLimiter) (direction : Direction) (ip : IpAddr) :
    Option ConnectionLimiter :=
  (addPermit l.perIp ip).map fun perIp =>
    { l.setActive direction (fetchAddOne (l.active direction)) with perIp := perIp }

/-- What a call returns and the limiter it leaves; `none` where a count overflows. -/
abbrev Outcome := Option (ConnectionLimiter × Except RejectReason Unit)

def countIn (l : ConnectionLimiter) (direction : Direction) (ip : IpAddr) : Outcome :=
  (l.admitted direction ip).map fun l => (l, .ok ())

def reject (l : ConnectionLimiter) (reason : RejectReason) : Outcome :=
  some (l.rejected, .error reason)

/-- `try_admit` -/
def tryAdmit (l : ConnectionLimiter) (direction : Direction) (ip : IpAddr) : Outcome :=
  if l.config.maxPerIp ≤ Tally.counter 0 l.perIp ip then l.reject .perIp
  else if l.config.maxTotal ≤ saturatingAddUsize l.inbound l.outbound then l.reject .total
  else match direction with
    | .inbound =>
      if l.config.maxInbound ≤ l.inbound then l.reject .totalInbound else l.countIn .inbound ip
    | .outbound =>
      if l.config.maxOutbound ≤ l.outbound then l.reject .totalOutbound else l.countIn .outbound ip

/-- Inbound connections of configured peers bypass the limits. -/
def isUnconditional (direction : Direction) (nodeId : Option NodeId)
    (unconditional : Finset NodeId) : Bool :=
  direction = .inbound && nodeId.any fun id => id ∈ unconditional

/-- `try_admit_peer` -/
def tryAdmitPeer (l : ConnectionLimiter) (direction : Direction) (ip : IpAddr)
    (nodeId : Option NodeId) (unconditional : Finset NodeId) : Outcome :=
  if isUnconditional direction nodeId unconditional then l.countIn .inbound ip
  else l.tryAdmit direction ip

/-- `release` -/
def release (l : ConnectionLimiter) (direction : Direction) (ip : IpAddr) : ConnectionLimiter :=
  { l.setActive direction (l.active direction - 1) with perIp := Permits.drop l.perIp ip }

inductive Call
  | tryAdmit (direction : Direction) (ip : IpAddr)
  | tryAdmitPeer (direction : Direction) (ip : IpAddr) (nodeId : Option NodeId)
    (unconditional : Finset NodeId)
  | release (direction : Direction) (ip : IpAddr)

/-- A limiter and the admissions that are not released. -/
structure Session where
  limiter : ConnectionLimiter
  outstanding : List (Direction × IpAddr)

namespace Session

def start (config : ConnectionLimitsConfig) : Session where
  limiter := new config
  outstanding := []

/-- A success is an admission more. -/
def after (s : Session) (direction : Direction) (ip : IpAddr) :
    ConnectionLimiter × Except RejectReason Unit → Session
  | (l, .ok ()) => { limiter := l, outstanding := (direction, ip) :: s.outstanding }
  | (l, .error _) => { s with limiter := l }

def call (s : Session) : Call → Option Session
  | .tryAdmit direction ip => (s.limiter.tryAdmit direction ip).map (s.after direction ip)
  | .tryAdmitPeer direction ip nodeId unconditional =>
    (s.limiter.tryAdmitPeer direction ip nodeId unconditional).map (s.after direction ip)
  | .release direction ip =>
    some { limiter := s.limiter.release direction ip,
           outstanding := s.outstanding.erase (direction, ip) }

/-- The number of admissions of a direction. -/
def held (s : Session) (direction : Direction) : ℕ :=
  (s.outstanding.map Prod.fst).count direction

/-- The number of admissions of an address. -/
def heldFrom (s : Session) (ip : IpAddr) : ℕ := (s.outstanding.map Prod.snd).count ip

/-- A release is one of an admission. -/
def Matches (s : Session) : Call → Prop
  | .release direction ip => (direction, ip) ∈ s.outstanding
  | _ => True

/-- An unconditional admission leaves fewer than `2 ^ 64` admissions of its direction and of its
address. -/
def Room (s : Session) : Call → Prop
  | .tryAdmitPeer direction ip nodeId unconditional =>
    isUnconditional direction nodeId unconditional = true →
      s.held .inbound + 1 < 2 ^ 64 ∧ s.heldFrom ip + 1 < 2 ^ 64
  | _ => True

/-- The limiter counts the admissions. -/
structure Accounted (s : Session) : Prop where
  inbound : s.limiter.inbound = s.held .inbound
  outbound : s.limiter.outbound = s.held .outbound
  perIp : ∀ ip, Tally.counter 0 s.limiter.perIp ip = s.heldFrom ip
  nonzero : ∀ ip count, s.limiter.perIp.get? ip = some count → count ≠ 0
  sum : s.limiter.perIp.sumOf (fun _ count => count) = s.limiter.inbound + s.limiter.outbound

/-- What the calls keep. -/
structure Counted (config : ConnectionLimitsConfig) (s : Session) : Prop where
  sameConfig : s.limiter.config = config
  active : ∀ direction, s.limiter.active direction = s.held direction
  perIp : Permits.Counts s.limiter.perIp (s.outstanding.map Prod.snd)

end Session

instance (s : Session) : DecidablePred s.Matches
  | .tryAdmit _ _ => inferInstanceAs (Decidable True)
  | .tryAdmitPeer _ _ _ _ => inferInstanceAs (Decidable True)
  | .release direction ip => inferInstanceAs (Decidable ((direction, ip) ∈ s.outstanding))

instance (s : Session) : DecidablePred s.Room
  | .tryAdmit _ _ => inferInstanceAs (Decidable True)
  | .tryAdmitPeer .. => inferInstanceAs (Decidable (_ → _ ∧ _))
  | .release _ _ => inferInstanceAs (Decidable True)

/-! ### One call -/

/-- The limit of a direction. -/
def limit (config : ConnectionLimitsConfig) : Direction → ℕ
  | .inbound => config.maxInbound
  | .outbound => config.maxOutbound

theorem limit_lt (config : ConnectionLimitsConfig) (direction : Direction) :
    limit config direction < 2 ^ 64 := by
  cases direction with
  | inbound => exact config.maxInbound_lt
  | outbound => exact config.maxOutbound_lt

theorem active_setActive (l : ConnectionLimiter) (d d' : Direction) (n : ℕ) :
    (l.setActive d n).active d' = if d' = d then n else l.active d' := by
  cases d <;> cases d' <;> rfl

@[simp] theorem active_with_perIp (l : ConnectionLimiter) (perIp : Table IpAddr ℕ)
    (d : Direction) : ({ l with perIp := perIp } : ConnectionLimiter).active d = l.active d := by
  cases d <;> rfl

/-- A rejected call raises the counter of the rejects; the other calls found room for the
connection. -/
theorem tryAdmit_cases (l : ConnectionLimiter) (d : Direction) (ip : IpAddr) :
    (∃ e, l.tryAdmit d ip = some (l.rejected, .error e)) ∨
      (Tally.counter 0 l.perIp ip < l.config.maxPerIp ∧
        l.inbound + l.outbound < l.config.maxTotal ∧ l.active d < limit l.config d ∧
        l.tryAdmit d ip = l.countIn d ip) := by
  unfold tryAdmit reject
  by_cases hip : l.config.maxPerIp ≤ Tally.counter 0 l.perIp ip
  · rw [if_pos hip]
    exact Or.inl ⟨.perIp, rfl⟩
  by_cases htotal : l.config.maxTotal ≤ saturatingAddUsize l.inbound l.outbound
  · rw [if_neg hip, if_pos htotal]
    exact Or.inl ⟨.total, rfl⟩
  have hroom : l.inbound + l.outbound < l.config.maxTotal := by
    have hmax := l.config.maxTotal_lt
    unfold saturatingAddUsize at htotal
    omega
  rw [if_neg hip, if_neg htotal]
  cases d with
  | inbound =>
    by_cases hdir : l.config.maxInbound ≤ l.inbound
    · rw [if_pos hdir]
      exact Or.inl ⟨.totalInbound, rfl⟩
    · rw [if_neg hdir]
      exact Or.inr ⟨Nat.lt_of_not_le hip, hroom, Nat.lt_of_not_le hdir, rfl⟩
  | outbound =>
    by_cases hdir : l.config.maxOutbound ≤ l.outbound
    · rw [if_pos hdir]
      exact Or.inl ⟨.totalOutbound, rfl⟩
    · rw [if_neg hdir]
      exact Or.inr ⟨Nat.lt_of_not_le hip, hroom, Nat.lt_of_not_le hdir, rfl⟩

/-- A connection more, where no count overflows. -/
def withOne (l : ConnectionLimiter) (d : Direction) (ip : IpAddr) : ConnectionLimiter :=
  { l.setActive d (l.active d + 1) with
    perIp := l.perIp.insert ip (Tally.counter 0 l.perIp ip + 1) }

theorem active_withOne (l : ConnectionLimiter) (d d' : Direction) (ip : IpAddr) :
    (l.withOne d ip).active d' = if d' = d then l.active d + 1 else l.active d' :=
  (active_with_perIp ..).trans (active_setActive ..)

theorem admit_of_lt {l : ConnectionLimiter} {d : Direction} {ip : IpAddr}
    (hd : l.active d + 1 < 2 ^ 64) (hip : Tally.counter 0 l.perIp ip + 1 < 2 ^ 64) :
    l.countIn d ip = some (l.withOne d ip, .ok ()) := by
  have hone : fetchAddOne (l.active d) = l.active d + 1 := Nat.mod_eq_of_lt hd
  unfold countIn admitted
  rw [addPermit_of_lt hip, hone]
  rfl

/-- A rejected call changes nothing but the counter of the rejects. -/
theorem rejected_of_tryAdmit {l l' : ConnectionLimiter} {d : Direction} {ip : IpAddr}
    {e : RejectReason} (h : l.tryAdmit d ip = some (l', .error e)) : l' = l.rejected := by
  obtain ⟨e', he⟩ | ⟨-, -, -, he⟩ := l.tryAdmit_cases d ip
  · rw [he] at h
    exact (Prod.mk.inj (Option.some.inj h)).1.symm
  · rw [he, countIn, Option.map_eq_some_iff] at h
    obtain ⟨a, -, ha⟩ := h
    cases (Prod.mk.inj ha).2

theorem rejected_of_tryAdmitPeer {l l' : ConnectionLimiter} {d : Direction} {ip : IpAddr}
    {nodeId : Option NodeId} {unconditional : Finset NodeId} {e : RejectReason}
    (h : l.tryAdmitPeer d ip nodeId unconditional = some (l', .error e)) : l' = l.rejected := by
  unfold tryAdmitPeer at h
  split_ifs at h
  · rw [countIn, Option.map_eq_some_iff] at h
    obtain ⟨a, -, ha⟩ := h
    cases (Prod.mk.inj ha).2
  · exact rejected_of_tryAdmit h

/-- What an admission raises is within its limit, and the rest stays. -/
structure WithinLimits (l l' : ConnectionLimiter) : Prop where
  inbound : l'.inbound ≤ l.config.maxInbound ∨ l'.inbound = l.inbound
  outbound : l'.outbound ≤ l.config.maxOutbound ∨ l'.outbound = l.outbound
  total : l'.inbound + l'.outbound ≤ l.config.maxTotal
  perIp : ∀ ip, Tally.counter 0 l'.perIp ip ≤ l.config.maxPerIp ∨
    Tally.counter 0 l'.perIp ip = Tally.counter 0 l.perIp ip

theorem withinLimits_of_tryAdmit {l l' : ConnectionLimiter} {d : Direction} {ip : IpAddr}
    (h : l.tryAdmit d ip = some (l', .ok ())) : WithinLimits l l' := by
  obtain ⟨e, he⟩ | ⟨hip, htotal, hdir, he⟩ := l.tryAdmit_cases d ip
  · rw [he] at h
    cases (Prod.mk.inj (Option.some.inj h)).2
  have hd := limit_lt l.config d
  have hmax := l.config.maxPerIp_lt
  rw [he, admit_of_lt (by omega) (by omega)] at h
  have hl : l.withOne d ip = l' := (Prod.mk.inj (Option.some.inj h)).1
  have hperIp : ∀ j, Tally.counter 0 l'.perIp j ≤ l.config.maxPerIp ∨
      Tally.counter 0 l'.perIp j = Tally.counter 0 l.perIp j := by
    intro j
    rw [← hl]
    show Tally.counter 0 (l.perIp.insert ip (Tally.counter 0 l.perIp ip + 1)) j ≤ _ ∨ _
    rw [withOne, Tally.counter_insert]
    split_ifs with hj
    · exact Or.inl hip
    · exact Or.inr rfl
  cases d with
  | inbound =>
    have hin : l'.inbound = l.inbound + 1 := by rw [← hl]; rfl
    have hout : l'.outbound = l.outbound := by rw [← hl]; rfl
    have hle : l.inbound < l.config.maxInbound := hdir
    exact ⟨Or.inl (by omega), Or.inr hout, by omega, hperIp⟩
  | outbound =>
    have hin : l'.inbound = l.inbound := by rw [← hl]; rfl
    have hout : l'.outbound = l.outbound + 1 := by rw [← hl]; rfl
    have hle : l.outbound < l.config.maxOutbound := hdir
    exact ⟨Or.inr hin, Or.inl (by omega), by omega, hperIp⟩

/-! ### Runs of calls -/

namespace Session
variable {config : ConnectionLimitsConfig} {s : Session} {d : Direction} {ip : IpAddr}

theorem length_eq_held (s : Session) :
    s.outstanding.length = s.held .inbound + s.held .outbound := by
  unfold held
  induction s.outstanding with
  | nil => rfl
  | cons a rest ih =>
    obtain ⟨d, ip⟩ := a
    rw [List.map_cons, List.length_cons, ih, List.count_cons, List.count_cons]
    cases d
    · simp
      omega
    · simp
      omega

theorem counted_start (config : ConnectionLimitsConfig) : (start config).Counted config where
  sameConfig := rfl
  active d := by cases d <;> rfl
  perIp := Permits.counts_empty

theorem Counted.accounted (h : s.Counted config) : s.Accounted where
  inbound := h.active .inbound
  outbound := h.active .outbound
  perIp := h.perIp.counter_eq
  nonzero _ _ hget := Nat.pos_iff_ne_zero.mp (h.perIp.pos hget)
  sum := by
    have hin : s.limiter.inbound = s.held .inbound := h.active .inbound
    have hout : s.limiter.outbound = s.held .outbound := h.active .outbound
    rw [h.perIp.sumOf_eq, List.length_map, length_eq_held, hin, hout]

/-- An admission that overflows nothing. -/
theorem Counted.countIn (h : s.Counted config) (hd : s.held d + 1 < 2 ^ 64)
    (hip : s.heldFrom ip + 1 < 2 ^ 64) :
    ∃ t, (s.limiter.countIn d ip).map (s.after d ip) = some t ∧ t.Counted config := by
  have hcount : Tally.counter 0 s.limiter.perIp ip = s.heldFrom ip := h.perIp.counter_eq ip
  rw [← h.active] at hd
  rw [← hcount] at hip
  have hactive : ∀ d', (s.limiter.withOne d ip).active d' =
      (d :: s.outstanding.map Prod.fst).count d' := by
    intro d'
    rw [active_withOne, h.active, h.active, List.count_cons]
    by_cases hd' : d' = d
    · rw [if_pos hd', hd', if_pos (beq_self_eq_true d)]
      rfl
    · have hne : ¬ (d == d') = true := fun he => hd' (beq_iff_eq.mp he).symm
      rw [if_neg hd', if_neg hne]
      rfl
  rw [admit_of_lt hd hip]
  have hconfig : (s.limiter.withOne d ip).config = config := by
    rw [← h.sameConfig]
    cases d <;> rfl
  exact ⟨_, rfl, hconfig, hactive, h.perIp.take ip⟩

theorem Counted.rejected (h : s.Counted config) :
    ({ s with limiter := s.limiter.rejected } : Session).Counted config where
  sameConfig := h.sameConfig
  active d := by
    have hsame : s.limiter.rejected.active d = s.limiter.active d := by cases d <;> rfl
    exact hsame.trans (h.active d)
  perIp := h.perIp

theorem Counted.tryAdmit (h : s.Counted config) (d : Direction) (ip : IpAddr) :
    ∃ t, (s.limiter.tryAdmit d ip).map (s.after d ip) = some t ∧ t.Counted config := by
  obtain ⟨e, he⟩ | ⟨hip, -, hd, he⟩ := s.limiter.tryAdmit_cases d ip
  · rw [he]
    exact ⟨_, rfl, h.rejected⟩
  · have hcount : Tally.counter 0 s.limiter.perIp ip = s.heldFrom ip := h.perIp.counter_eq ip
    have hlimit := limit_lt s.limiter.config d
    have hmax := s.limiter.config.maxPerIp_lt
    have hactive := h.active d
    rw [he]
    exact h.countIn (by omega) (by omega)

theorem Counted.release (h : s.Counted config) (hmem : (d, ip) ∈ s.outstanding) :
    ({ limiter := s.limiter.release d ip, outstanding := s.outstanding.erase (d, ip) } :
      Session).Counted config where
  sameConfig := by
    rw [← h.sameConfig]
    cases d <;> rfl
  active d' := by
    have hcount := ((List.perm_cons_erase hmem).map Prod.fst).count_eq d'
    rw [List.map_cons, List.count_cons] at hcount
    have hself := h.active d
    have hother := h.active d'
    have hrelease : (s.limiter.release d ip).active d' =
        if d' = d then s.limiter.active d - 1 else s.limiter.active d' :=
      (active_with_perIp ..).trans (active_setActive ..)
    show (s.limiter.release d ip).active d' = _
    unfold held at *
    rw [hrelease]
    by_cases hd : d' = d
    · subst hd
      rw [if_pos rfl]
      rw [if_pos (beq_self_eq_true d')] at hcount
      show _ = ((s.outstanding.erase (d', ip)).map Prod.fst).count d'
      omega
    · have hne : ¬ (d == d') = true := fun he => hd (beq_iff_eq.mp he).symm
      rw [if_neg hd]
      rw [if_neg hne] at hcount
      show _ = ((s.outstanding.erase (d, ip)).map Prod.fst).count d'
      omega
  perIp := by
    have hperm := (List.perm_cons_erase hmem).map Prod.snd
    have hip : ip ∈ s.outstanding.map Prod.snd := List.mem_map_of_mem (f := Prod.snd) hmem
    have hrest : ((s.outstanding.map Prod.snd).erase ip).Perm
        ((s.outstanding.erase (d, ip)).map Prod.snd) := by
      have herase := hperm.erase ip
      rwa [List.map_cons, List.erase_cons_head] at herase
    exact (h.perIp.drop hip).perm hrest

/-- What one call does. -/
theorem Counted.call (h : s.Counted config) {c : Call} (hmatch : s.Matches c) (hroom : s.Room c) :
    ∃ t, s.call c = some t ∧ t.Counted config := by
  cases c with
  | tryAdmit d ip => exact h.tryAdmit d ip
  | tryAdmitPeer d ip nodeId unconditional =>
    show ∃ t, (s.limiter.tryAdmitPeer d ip nodeId unconditional).map (s.after d ip) = some t ∧
      t.Counted config
    unfold tryAdmitPeer
    by_cases hun : isUnconditional d nodeId unconditional = true
    · have hd : d = .inbound := by
        have hand := Bool.and_eq_true_iff.mp hun
        exact of_decide_eq_true hand.1
      obtain ⟨hin, hip⟩ := hroom hun
      rw [if_pos hun, hd]
      exact h.countIn hin hip
    · rw [if_neg hun]
      exact h.tryAdmit d ip
  | release d ip => exact ⟨_, rfl, h.release hmatch⟩

end Session

/-- What a run keeps. -/
theorem counted_run {config : ConnectionLimitsConfig} {calls : List Call}
    (hmatched : Along (Fallible.step Session.call) (Fallible.Meets Session.Matches)
      (some (Session.start config)) calls)
    (hroom : Along (Fallible.step Session.call) (Fallible.Meets Session.Room)
      (some (Session.start config)) calls) :
    ∃ s, run (Fallible.step Session.call) (some (Session.start config)) calls = some s ∧
      s.Counted config := by
  have hboth := Fallible.along_and hmatched hroom
  refine Fallible.run_invariant hboth ?_ (Session.counted_start config)
  exact fun s c hq hs => hs.call hq.1 hq.2

end ConnectionLimiter

/-! ### Handshakes -/

structure HandshakeLimitsConfig where
  maxInflight : ℕ
  maxInflightPerIp : ℕ
  maxInflight_lt : maxInflight < 2 ^ 64
  maxInflightPerIp_lt : maxInflightPerIp < 2 ^ 64

/-- `production_defaults` -/
def HandshakeLimitsConfig.productionDefaults : HandshakeLimitsConfig where
  maxInflight := 256
  maxInflightPerIp := 4
  maxInflight_lt := by decide
  maxInflightPerIp_lt := by decide

inductive HandshakeReject
  | totalInflight
  | perIpInflight
  deriving DecidableEq

structure HandshakeLimiter where
  config : HandshakeLimitsConfig
  inflight : ℕ
  perIp : Table IpAddr ℕ
  rejects : ℕ

/-- A permit; the limiter that it refers to is the one of the run. -/
structure HandshakePermit where
  ip : IpAddr
  deriving DecidableEq

namespace HandshakeLimiter

def new (config : HandshakeLimitsConfig) : HandshakeLimiter where
  config := config
  inflight := 0
  perIp := ∅
  rejects := 0

def rejected (l : HandshakeLimiter) : HandshakeLimiter :=
  { l with rejects := fetchAddOne l.rejects }

/-- What a call returns and the limiter it leaves; `none` where a count overflows. -/
abbrev Outcome := Option (HandshakeLimiter × Except HandshakeReject HandshakePermit)

def reject (l : HandshakeLimiter) (reason : HandshakeReject) : Outcome :=
  some (l.rejected, .error reason)

def grant (l : HandshakeLimiter) (ip : IpAddr) : Outcome :=
  (addPermit l.perIp ip).map fun perIp =>
    ({ l with inflight := fetchAddOne l.inflight, perIp := perIp }, .ok { ip := ip })

/-- `try_acquire` -/
def tryAcquire (l : HandshakeLimiter) (ip : IpAddr) : Outcome :=
  if l.config.maxInflightPerIp ≤ Tally.counter 0 l.perIp ip then l.reject .perIpInflight
  else if l.config.maxInflight ≤ l.inflight then l.reject .totalInflight
  else l.grant ip

/-- `release` -/
def release (l : HandshakeLimiter) (ip : IpAddr) : HandshakeLimiter :=
  { l with inflight := l.inflight - 1, perIp := Permits.drop l.perIp ip }

inductive Call
  | tryAcquire (ip : IpAddr)
  | drop (permit : HandshakePermit)

/-- A limiter and the permits that are not dropped. -/
structure Session where
  limiter : HandshakeLimiter
  permits : List HandshakePermit

namespace Session

def start (config : HandshakeLimitsConfig) : Session where
  limiter := new config
  permits := []

def after (s : Session) : HandshakeLimiter × Except HandshakeReject HandshakePermit → Session
  | (l, .ok permit) => { limiter := l, permits := permit :: s.permits }
  | (l, .error _) => { s with limiter := l }

def call (s : Session) : Call → Option Session
  | .tryAcquire ip => (s.limiter.tryAcquire ip).map s.after
  | .drop permit =>
    some { limiter := s.limiter.release permit.ip, permits := s.permits.erase permit }

/-- A permit is dropped once. -/
def Matches (s : Session) : Call → Prop
  | .tryAcquire _ => True
  | .drop permit => permit ∈ s.permits

instance (s : Session) : DecidablePred s.Matches
  | .tryAcquire _ => inferInstanceAs (Decidable True)
  | .drop permit => inferInstanceAs (Decidable (permit ∈ s.permits))

def heldFrom (s : Session) (ip : IpAddr) : ℕ := (s.permits.map HandshakePermit.ip).count ip

/-- The limiter counts the permits, and no more are held than it allows. -/
structure Accounted (s : Session) : Prop where
  inflight : s.limiter.inflight = s.permits.length
  perIp : ∀ ip, Tally.counter 0 s.limiter.perIp ip = s.heldFrom ip
  nonzero : ∀ ip count, s.limiter.perIp.get? ip = some count → count ≠ 0
  sum : s.limiter.perIp.sumOf (fun _ count => count) = s.limiter.inflight
  maxInflight : s.limiter.inflight ≤ s.limiter.config.maxInflight
  maxPerIp : ∀ ip, Tally.counter 0 s.limiter.perIp ip ≤ s.limiter.config.maxInflightPerIp

/-- What the calls keep. -/
structure Counted (config : HandshakeLimitsConfig) (s : Session) : Prop where
  sameConfig : s.limiter.config = config
  inflight : s.limiter.inflight = s.permits.length
  perIp : Permits.Counts s.limiter.perIp (s.permits.map HandshakePermit.ip)
  maxInflight : s.limiter.inflight ≤ config.maxInflight
  maxPerIp : ∀ ip, s.heldFrom ip ≤ config.maxInflightPerIp

variable {config : HandshakeLimitsConfig} {s : Session}

theorem counted_start (config : HandshakeLimitsConfig) : (start config).Counted config where
  sameConfig := rfl
  inflight := rfl
  perIp := Permits.counts_empty
  maxInflight := Nat.zero_le _
  maxPerIp _ := Nat.zero_le _

theorem Counted.accounted (h : s.Counted config) : s.Accounted where
  inflight := h.inflight
  perIp := h.perIp.counter_eq
  nonzero _ _ hget := Nat.pos_iff_ne_zero.mp (h.perIp.pos hget)
  sum := by rw [h.perIp.sumOf_eq, List.length_map, h.inflight]
  maxInflight := by
    rw [h.sameConfig]
    exact h.maxInflight
  maxPerIp ip := by
    rw [h.perIp.counter_eq, h.sameConfig]
    exact h.maxPerIp ip

end Session

/-- A rejected call raises the counter of the rejects; the other calls found room for a permit. -/
theorem tryAcquire_cases (l : HandshakeLimiter) (ip : IpAddr) :
    (∃ e, l.tryAcquire ip = some (l.rejected, .error e)) ∨
      (Tally.counter 0 l.perIp ip < l.config.maxInflightPerIp ∧
        l.inflight < l.config.maxInflight ∧
        l.tryAcquire ip = some ({ l with
          inflight := l.inflight + 1,
          perIp := l.perIp.insert ip (Tally.counter 0 l.perIp ip + 1) }, .ok { ip := ip })) := by
  unfold tryAcquire reject
  by_cases hip : l.config.maxInflightPerIp ≤ Tally.counter 0 l.perIp ip
  · rw [if_pos hip]
    exact Or.inl ⟨.perIpInflight, rfl⟩
  by_cases htotal : l.config.maxInflight ≤ l.inflight
  · rw [if_neg hip, if_pos htotal]
    exact Or.inl ⟨.totalInflight, rfl⟩
  have hmax := l.config.maxInflight_lt
  have hmaxIp := l.config.maxInflightPerIp_lt
  have hone : fetchAddOne l.inflight = l.inflight + 1 := Nat.mod_eq_of_lt (by omega)
  refine Or.inr ⟨Nat.lt_of_not_le hip, Nat.lt_of_not_le htotal, ?_⟩
  rw [if_neg hip, if_neg htotal, grant, addPermit_of_lt (by omega), hone]
  rfl

/-- A rejected call changes nothing but the counter of the rejects. -/
theorem rejected_of_tryAcquire {l l' : HandshakeLimiter} {ip : IpAddr} {e : HandshakeReject}
    (h : l.tryAcquire ip = some (l', .error e)) : l' = l.rejected := by
  obtain ⟨e', he⟩ | ⟨-, -, he⟩ := l.tryAcquire_cases ip
  · rw [he] at h
    exact (Prod.mk.inj (Option.some.inj h)).1.symm
  · rw [he] at h
    cases (Prod.mk.inj (Option.some.inj h)).2

namespace Session
variable {config : HandshakeLimitsConfig} {s : Session}

theorem Counted.tryAcquire (h : s.Counted config) (ip : IpAddr) :
    ∃ t, (s.limiter.tryAcquire ip).map s.after = some t ∧ t.Counted config := by
  have hconfig := h.sameConfig
  obtain ⟨e, he⟩ | ⟨hip, hinflight, he⟩ := s.limiter.tryAcquire_cases ip
  · rw [he]
    exact ⟨_, rfl, hconfig, h.inflight, h.perIp, h.maxInflight, h.maxPerIp⟩
  · have hmaxPerIp : ∀ j, (ip :: s.permits.map HandshakePermit.ip).count j ≤
        config.maxInflightPerIp := by
      intro j
      rw [hconfig, h.perIp.counter_eq] at hip
      rw [List.count_cons]
      split_ifs with hj
      · rw [← beq_iff_eq.mp hj]
        exact hip
      · exact h.maxPerIp j
    rw [hconfig] at hinflight
    rw [he]
    exact ⟨_, rfl, hconfig, congrArg (· + 1) h.inflight, h.perIp.take ip, hinflight, hmaxPerIp⟩

theorem Counted.release (h : s.Counted config) {permit : HandshakePermit}
    (hmem : permit ∈ s.permits) :
    ({ limiter := s.limiter.release permit.ip, permits := s.permits.erase permit } :
      Session).Counted config where
  sameConfig := h.sameConfig
  inflight := by
    rw [List.length_erase_of_mem hmem, ← h.inflight]
    rfl
  perIp := by
    have hip : permit.ip ∈ s.permits.map HandshakePermit.ip := List.mem_map_of_mem hmem
    have herase := ((List.perm_cons_erase hmem).map HandshakePermit.ip).erase permit.ip
    rw [List.map_cons, List.erase_cons_head] at herase
    exact (h.perIp.drop hip).perm herase
  maxInflight := (Nat.sub_le _ 1).trans h.maxInflight
  maxPerIp ip := by
    have hsub : ((s.permits.erase permit).map HandshakePermit.ip).Sublist
        (s.permits.map HandshakePermit.ip) := List.erase_sublist.map _
    exact (hsub.count_le ip).trans (h.maxPerIp ip)

/-- What one call does. -/
theorem Counted.call (h : s.Counted config) {c : Call} (hmatch : s.Matches c) :
    ∃ t, s.call c = some t ∧ t.Counted config := by
  cases c with
  | tryAcquire ip => exact h.tryAcquire ip
  | drop permit => exact ⟨_, rfl, h.release hmatch⟩

end Session

/-- What a run keeps. -/
theorem counted_run {config : HandshakeLimitsConfig} {calls : List Call}
    (hmatched : Along (Fallible.step Session.call) (Fallible.Meets Session.Matches)
      (some (Session.start config)) calls) :
    ∃ s, run (Fallible.step Session.call) (some (Session.start config)) calls = some s ∧
      s.Counted config :=
  Fallible.run_invariant hmatched (fun _ _ hmatch hs => hs.call hmatch)
    (Session.counted_start config)

end HandshakeLimiter

/-- Connections and handshakes are accounted for exactly, as long as there are fewer than `2 ^ 64`
inbound connections and fewer than `2 ^ 64` connections of one address. -/
theorem slots_accounted {config : ConnectionLimitsConfig} {calls : List ConnectionLimiter.Call}
    {handshakes : HandshakeLimitsConfig} {handshakeCalls : List HandshakeLimiter.Call}
    (hmatched : Along (Fallible.step ConnectionLimiter.Session.call)
      (Fallible.Meets ConnectionLimiter.Session.Matches)
      (some (ConnectionLimiter.Session.start config)) calls)
    (hroom : Along (Fallible.step ConnectionLimiter.Session.call)
      (Fallible.Meets ConnectionLimiter.Session.Room)
      (some (ConnectionLimiter.Session.start config)) calls)
    (hdropped : Along (Fallible.step HandshakeLimiter.Session.call)
      (Fallible.Meets HandshakeLimiter.Session.Matches)
      (some (HandshakeLimiter.Session.start handshakes)) handshakeCalls) :
    ((∃ s, run (Fallible.step ConnectionLimiter.Session.call)
          (some (ConnectionLimiter.Session.start config)) calls = some s ∧
          s.limiter.config = config ∧ s.Accounted) ∧
        (∀ (l l' : ConnectionLimiter) (d : Direction) (ip : IpAddr) (e : RejectReason),
          l.tryAdmit d ip = some (l', .error e) → l' = l.rejected) ∧
        (∀ (l l' : ConnectionLimiter) (d : Direction) (ip : IpAddr) (nodeId : Option NodeId)
          (unconditional : Finset NodeId) (e : RejectReason),
          l.tryAdmitPeer d ip nodeId unconditional = some (l', .error e) → l' = l.rejected) ∧
        ∀ (l l' : ConnectionLimiter) (d : Direction) (ip : IpAddr),
          l.tryAdmit d ip = some (l', .ok ()) → l.WithinLimits l') ∧
      (∃ s, run (Fallible.step HandshakeLimiter.Session.call)
          (some (HandshakeLimiter.Session.start handshakes)) handshakeCalls = some s ∧
          s.limiter.config = handshakes ∧ s.Accounted) ∧
      ∀ (l l' : HandshakeLimiter) (ip : IpAddr) (e : HandshakeReject),
        l.tryAcquire ip = some (l', .error e) → l' = l.rejected := by
  obtain ⟨s, hrun, hs⟩ := ConnectionLimiter.counted_run hmatched hroom
  obtain ⟨t, hrun', ht⟩ := HandshakeLimiter.counted_run hdropped
  refine ⟨⟨⟨s, hrun, hs.sameConfig, hs.accounted⟩, ?_, ?_, ?_⟩,
    ⟨t, hrun', ht.sameConfig, ht.accounted⟩, ?_⟩
  · exact fun l l' d ip e h => ConnectionLimiter.rejected_of_tryAdmit h
  · exact fun l l' d ip nodeId unconditional e h => ConnectionLimiter.rejected_of_tryAdmitPeer h
  · exact fun l l' d ip h => ConnectionLimiter.withinLimits_of_tryAdmit h
  · exact fun l l' ip e h => HandshakeLimiter.rejected_of_tryAcquire h

namespace Sample
open ConnectionLimiter

/-- An inbound connection of a configured peer. -/
def configuredPeer (ip : IpAddr) : Call := .tryAdmitPeer .inbound ip (some 7) {7}

/-- Two connections of one address, of which one is released, and a handshake. -/
theorem slots_accounted_for_two :
    (∃ s, run (Fallible.step Session.call)
        (some (Session.start ConnectionLimitsConfig.productionDefaults))
        [.tryAdmit .inbound (.v4 1), configuredPeer (.v4 1), .release .inbound (.v4 1)] = some s ∧
        s.limiter.config = ConnectionLimitsConfig.productionDefaults ∧ s.Accounted) ∧
      ∃ s, run (Fallible.step HandshakeLimiter.Session.call)
        (some (HandshakeLimiter.Session.start HandshakeLimitsConfig.productionDefaults))
        [.tryAcquire (.v4 1), .drop { ip := .v4 1 }] = some s ∧
        s.limiter.config = HandshakeLimitsConfig.productionDefaults ∧ s.Accounted := by
  have h := @slots_accounted .productionDefaults
    [.tryAdmit .inbound (.v4 1), configuredPeer (.v4 1), .release .inbound (.v4 1)]
    .productionDefaults [.tryAcquire (.v4 1), .drop { ip := .v4 1 }]
    (by decide) (by decide) (by decide)
  exact ⟨h.1.1, h.2.1⟩

/-- The session after the connection of a configured peer. -/
def afterPeer (s : Session) (ip : IpAddr) : Session where
  limiter :=
    { s.limiter with
      inbound := (s.limiter.inbound + 1) % 2 ^ 64
      perIp := s.limiter.perIp.insert ip (Tally.counter 0 s.limiter.perIp ip + 1) }
  outstanding := (.inbound, ip) :: s.outstanding

theorem call_configuredPeer {s : Session} {ip : IpAddr}
    (hip : Tally.counter 0 s.limiter.perIp ip + 1 < 2 ^ 64) :
    s.call (configuredPeer ip) = some (afterPeer s ip) := by
  show (s.limiter.countIn .inbound ip).map (s.after .inbound ip) = _
  rw [countIn, admitted, addPermit_of_lt hip]
  rfl

theorem run_configuredPeer {s : Session} {ip : IpAddr} {n : ℕ} (hin : s.limiter.inbound < 2 ^ 64)
    (hip : Tally.counter 0 s.limiter.perIp ip + n < 2 ^ 64) :
    ∃ t, run (Fallible.step Session.call) (some s) (List.replicate n (configuredPeer ip)) = some t ∧
      t.limiter.inbound = (s.limiter.inbound + n) % 2 ^ 64 ∧
      (∀ j, j ≠ ip → Tally.counter 0 t.limiter.perIp j = Tally.counter 0 s.limiter.perIp j) ∧
      t.outstanding = List.replicate n (.inbound, ip) ++ s.outstanding := by
  induction n generalizing s with
  | zero => exact ⟨s, rfl, (Nat.mod_eq_of_lt hin).symm, fun _ _ => rfl, rfl⟩
  | succ n ih =>
    have hcounter : ∀ j, Tally.counter 0 (afterPeer s ip).limiter.perIp j =
        if j = ip then Tally.counter 0 s.limiter.perIp ip + 1
        else Tally.counter 0 s.limiter.perIp j :=
      fun j => Tally.counter_insert ..
    have hroom : Tally.counter 0 (afterPeer s ip).limiter.perIp ip + n < 2 ^ 64 := by
      rw [hcounter, if_pos rfl]
      omega
    obtain ⟨t, hrun, hinbound, hothers, hout⟩ :=
      ih (s := afterPeer s ip) (Nat.mod_lt _ (by omega)) hroom
    refine ⟨t, ?_, ?_, fun j hj => ?_, ?_⟩
    · have hcall := @call_configuredPeer s ip (by omega)
      rw [List.replicate_succ, run_cons, Fallible.step, Option.bind_some, hcall, hrun]
    · rw [hinbound, afterPeer, Nat.mod_add_mod, Nat.add_assoc, Nat.add_comm 1 n]
    · rw [hothers j hj, hcounter, if_neg hj]
    · rw [hout, List.replicate_succ', List.append_assoc]
      rfl

/-- The calls of `configuredPeers m n`: as many connections of each of two addresses. -/
def configuredPeers (m n : ℕ) : List Call :=
  List.replicate m (configuredPeer (.v4 1)) ++ List.replicate n (configuredPeer (.v4 2))

theorem matches_configuredPeers (m n : ℕ) (o : Option Session) :
    Along (Fallible.step Session.call) (Fallible.Meets Session.Matches) o
      (configuredPeers m n) := by
  have hpeer : ∀ c ∈ configuredPeers m n, ∃ ip, c = configuredPeer ip := by
    intro c hc
    obtain h | h := List.mem_append.mp hc
    · exact ⟨_, List.eq_of_mem_replicate h⟩
    · exact ⟨_, List.eq_of_mem_replicate h⟩
  refine (Along.of_forall hpeer).mono ?_
  rintro o _ ⟨ip, rfl⟩
  cases o with
  | none => trivial
  | some s => trivial

/-- The counter is the number of connections modulo `2 ^ 64`. -/
theorem run_configuredPeers {m n : ℕ} (hm : m < 2 ^ 64) (hn : n < 2 ^ 64)
    (config : ConnectionLimitsConfig) :
    ∃ s, run (Fallible.step Session.call) (some (Session.start config)) (configuredPeers m n) =
        some s ∧ s.limiter.inbound = (m + n) % 2 ^ 64 ∧ s.held .inbound = m + n := by
  have hcounter : ∀ ip, Tally.counter 0 (Session.start config).limiter.perIp ip = 0 :=
    fun _ => rfl
  have hzero : (Session.start config).limiter.inbound = 0 := rfl
  obtain ⟨t, ht, hin, hothers, hout⟩ := @run_configuredPeer (Session.start config) (.v4 1) m
    (by rw [hzero]; omega) (by rw [hcounter]; omega)
  have hne : IpAddr.v4 2 ≠ .v4 1 := by decide
  obtain ⟨u, hu, hin', -, hout'⟩ := @run_configuredPeer t (.v4 2) n
    (by rw [hin]; exact Nat.mod_lt _ (by omega)) (by rw [hothers _ hne, hcounter]; omega)
  refine ⟨u, ?_, ?_, ?_⟩
  · rw [configuredPeers, run_append, ht, hu]
  · rw [hin', hin, hzero, Nat.zero_add, Nat.mod_add_mod]
  · have hnone : (Session.start config).outstanding = [] := rfl
    rw [Session.held, hout', hout, hnone, List.append_nil, List.map_append, List.map_replicate,
      List.map_replicate, List.count_append, List.count_replicate_self,
      List.count_replicate_self, Nat.add_comm]

/-- `2 ^ 63` connections of each of two addresses of configured peers are none in the counter. -/
theorem inbound_counter_wraps :
    Along (Fallible.step Session.call) (Fallible.Meets Session.Matches)
        (some (Session.start ConnectionLimitsConfig.productionDefaults))
        (configuredPeers (2 ^ 63) (2 ^ 63)) ∧
      ¬ ∃ s, run (Fallible.step Session.call)
        (some (Session.start ConnectionLimitsConfig.productionDefaults))
        (configuredPeers (2 ^ 63) (2 ^ 63)) = some s ∧ s.Accounted := by
  refine ⟨matches_configuredPeers _ _ _, ?_⟩
  rintro ⟨s, hrun, hs⟩
  obtain ⟨t, ht, hin, hheld⟩ := run_configuredPeers (m := 2 ^ 63) (n := 2 ^ 63) (by omega)
    (by omega) ConnectionLimitsConfig.productionDefaults
  have hts : t = s := Option.some.inj (ht.symm.trans hrun)
  have hinbound := hs.inbound
  rw [← hts, hheld, hin] at hinbound
  omega

end Sample
end Boule
