import Boule.Reth.RpcProxy

/-! The faucet: a cooldown for every address and a limit for every IP. A request is checked before
its drip is sent and recorded after it, so that requests overlap; the parser of addresses and the
execution node are parameters of a run. -/
namespace Boule.Faucet

/-- Of `FaucetConfig`, what the limiter uses; times are in nanoseconds. -/
structure Config where
  addressCooldown : ℕ
  ipWindow : ℕ
  ipMaxPerWindow : ℕ
  u32 : ipMaxPerWindow < 2 ^ 32

inductive Admission
  | allowed
  | addressCooldown (retry : ℕ)
  | ipRateLimited (retry : ℕ)
  deriving DecidableEq

structure RateLimiter where
  addressCooldown : ℕ
  ipWindow : ℕ
  ipMaxPerWindow : ℕ
  lastDrip : Table Address ℕ
  ipHits : Table IpAddr (List ℕ)

namespace RateLimiter

def new (cfg : Config) : RateLimiter where
  addressCooldown := cfg.addressCooldown
  ipWindow := cfg.ipWindow
  ipMaxPerWindow := cfg.ipMaxPerWindow
  lastDrip := ∅
  ipHits := ∅

/-- `check`, from the hits of the IP on; their number is cut to 32 bits. -/
def checkIp (l : RateLimiter) (ip : IpAddr) (now : ℕ) : RateLimiter × Admission :=
  let hits := (l.ipHits.hitsOf ip).filter (inWindow l.ipWindow now)
  if l.ipMaxPerWindow ≤ hits.length % 2 ^ 32 then
    ({ l with ipHits := l.ipHits.insert ip hits },
      .ipRateLimited ((hits.map fun t => l.ipWindow - (now - t)).min?.getD l.ipWindow))
  else ({ l with ipHits := l.ipHits.insert ip (hits ++ [now]) }, .allowed)

def check (l : RateLimiter) (ip : IpAddr) (address : Address) (now : ℕ) :
    RateLimiter × Admission :=
  match l.lastDrip.get? address with
  | some last =>
    if now - last < l.addressCooldown then (l, .addressCooldown (l.addressCooldown - (now - last)))
    else l.checkIp ip now
  | none => l.checkIp ip now

def recordDrip (l : RateLimiter) (address : Address) (now : ℕ) : RateLimiter :=
  { l with lastDrip := l.lastDrip.insert address now }

def gc (l : RateLimiter) (now : ℕ) : RateLimiter :=
  { l with
    ipHits := l.ipHits.dropIdle l.ipWindow now
    lastDrip := l.lastDrip.dropOld l.addressCooldown now }

end RateLimiter

/-- What `faucet_handler` answers; a request that waits for its drip has no answer yet. -/
inductive Answer
  | invalidAddress
  | tooMany (msg : String) (retryAfterSecs : ℕ)
  | dripped (txHash : String)
  | dripFailed
  deriving DecidableEq

/-- `Duration::as_secs` -/
def asSecs (nanos : ℕ) : ℕ := nanos / 10 ^ 9

/-- A request that waits for its drip; `seen` drips were recorded when it was checked. -/
structure Waiting where
  address : Address
  seen : ℕ
  deriving DecidableEq

/-- A recorded drip. -/
structure Drip extends Waiting where
  time : ℕ
  deriving DecidableEq

/-- The limiter, the requests that wait, and what has happened: who passed, and every drip. -/
structure State where
  limiter : RateLimiter
  waiting : List Waiting
  passed : List (IpAddr × ℕ)
  drips : List Drip

/-- A request reads its clock before it takes the lock; a drip is recorded under the lock. -/
inductive Event
  | request (ip : IpAddr) (address : String) (now : ℕ)
  | sent (i : ℕ) (txHash : Option String) (now : ℕ)

def Event.now : Event → ℕ
  | request _ _ now => now
  | sent _ _ now => now

section
variable (parseAddress : String → Option Address)

/-- One section of `faucet_handler`: up to the drip, or from its end on. -/
def step (s : State) : Event → State × Option Answer
  | .request ip text now =>
    match parseAddress text with
    | none => (s, some .invalidAddress)
    | some address =>
      match (s.limiter.gc now).check ip address now with
      | (l, .allowed) => ({ s with
          limiter := l
          waiting := s.waiting ++ [{ address, seen := s.drips.length }]
          passed := s.passed ++ [(ip, now)] }, none)
      | (l, .addressCooldown retry) => ({ s with limiter := l },
          some (.tooMany "address on cooldown (one drip per address per window)" (asSecs retry)))
      | (l, .ipRateLimited retry) => ({ s with limiter := l },
          some (.tooMany "per-IP request rate exceeded" (asSecs retry)))
  | .sent i txHash now =>
    match s.waiting[i]?, txHash with
    | none, _ => (s, none)
    | some w, some hash => ({ s with
        limiter := s.limiter.recordDrip w.address now
        waiting := s.waiting.eraseIdx i
        drips := s.drips ++ [{ toWaiting := w, time := now }] }, some (.dripped hash))
    | some _, none => ({ s with waiting := s.waiting.eraseIdx i }, some .dripFailed)

def State.init (cfg : Config) : State where
  limiter := .new cfg
  waiting := []
  passed := []
  drips := []

def run (cfg : Config) (events : List Event) : State :=
  events.foldl (fun s e => (step parseAddress s e).1) (.init cfg)

end

/-- A drip is recorded. -/
def Event.records : Event → Bool
  | sent _ (some _) _ => true
  | _ => false

/-- The clock does not run backwards: a drip's, which is read under the lock, is not behind those
that were used under it before. -/
def Clocked (events : List Event) : Prop :=
  events.Pairwise fun e e' => e'.records = true → e.now ≤ e'.now

instance (events : List Event) : Decidable (Clocked events) :=
  inferInstanceAs (Decidable (List.Pairwise _ events))

namespace RateLimiter

/-- The part of `check` behind the cooldown is the library's, no list being long enough to cut. -/
theorem checkIp_eq {l : RateLimiter} (hmax : l.ipMaxPerWindow < 2 ^ 32) {ip : IpAddr}
    (hfew : (l.ipHits.hitsOf ip).length ≤ l.ipMaxPerWindow) (now : ℕ) :
    (l.checkIp ip now).1 =
        { l with ipHits := (l.ipHits.hit l.ipWindow l.ipMaxPerWindow ip now).1 } ∧
      ((l.checkIp ip now).2 = .allowed ↔
        (l.ipHits.hit l.ipWindow l.ipMaxPerWindow ip now).2 = true) := by
  have hlen := List.length_filter_le (inWindow l.ipWindow now) (l.ipHits.hitsOf ip)
  unfold checkIp Table.hit
  simp only
  rw [Nat.mod_eq_of_lt (by omega)]
  split_ifs with hfull
  · simp
  · simp

theorem checkIp_limited {l : RateLimiter} {ip : IpAddr} {now retry : ℕ}
    (h : (l.checkIp ip now).2 = .ipRateLimited retry) :
    retry = (((l.ipHits.hitsOf ip).filter (inWindow l.ipWindow now)).map
      fun t => l.ipWindow - (now - t)).min?.getD l.ipWindow := by
  unfold checkIp at h
  simp only at h
  split_ifs at h
  exact (Admission.ipRateLimited.inj h).symm

theorem checkIp_ne {l : RateLimiter} {ip : IpAddr} {now retry : ℕ} :
    (l.checkIp ip now).2 ≠ .addressCooldown retry := by
  unfold checkIp
  simp only
  split_ifs
  · simp
  · simp

theorem check_cases (l : RateLimiter) (ip : IpAddr) (address : Address) (now : ℕ) :
    (∃ last, l.lastDrip.get? address = some last ∧ inWindow l.addressCooldown now last = true ∧
      l.check ip address now = (l, .addressCooldown (l.addressCooldown - (now - last)))) ∨
    ((∀ last, l.lastDrip.get? address = some last → inWindow l.addressCooldown now last = false) ∧
      l.check ip address now = l.checkIp ip now) := by
  unfold check
  cases hlast : l.lastDrip.get? address with
  | none => exact .inr ⟨fun last h => (Option.some_ne_none last h.symm).elim, rfl⟩
  | some last =>
    simp only
    split_ifs with hyoung
    · exact .inl ⟨last, rfl, decide_eq_true hyoung, rfl⟩
    · refine .inr ⟨fun last' h => ?_, rfl⟩
      rw [← Option.some.inj h]
      exact decide_eq_false hyoung

end RateLimiter

/-- What the limiter holds of the requests that passed and of the drips. -/
structure Holds (cfg : Config) (l : RateLimiter) (passed : List (IpAddr × ℕ))
    (drips : List (Address × ℕ)) (peak : ℕ) : Prop where
  cooldown_eq : l.addressCooldown = cfg.addressCooldown
  window_eq : l.ipWindow = cfg.ipWindow
  max_eq : l.ipMaxPerWindow = cfg.ipMaxPerWindow
  hits : RemembersHits cfg.ipWindow cfg.ipMaxPerWindow passed l.ipHits peak
  last : RemembersLast cfg.addressCooldown drips l.lastDrip peak

namespace Holds
variable {cfg : Config} {l : RateLimiter} {passed : List (IpAddr × ℕ)}
  {drips : List (Address × ℕ)} {peak : ℕ}

theorem new (cfg : Config) (peak : ℕ) : Holds cfg (.new cfg) [] [] peak where
  cooldown_eq := rfl
  window_eq := rfl
  max_eq := rfl
  hits := RemembersHits.empty _ _ _
  last := RemembersLast.empty _ _

theorem later (h : Holds cfg l passed drips peak) (now : ℕ) :
    Holds cfg l passed drips (max peak now) where
  cooldown_eq := h.cooldown_eq
  window_eq := h.window_eq
  max_eq := h.max_eq
  hits := h.hits.later now
  last := h.last.later now

theorem gc (h : Holds cfg l passed drips peak) (now : ℕ) :
    Holds cfg (l.gc now) passed drips (max peak now) where
  cooldown_eq := h.cooldown_eq
  window_eq := h.window_eq
  max_eq := h.max_eq
  hits := by
    rw [RateLimiter.gc, h.window_eq]
    exact h.hits.dropIdle now
  last := by
    rw [RateLimiter.gc, h.cooldown_eq]
    exact h.last.dropOld now

theorem recordDrip (h : Holds cfg l passed drips peak) (address : Address) (now : ℕ) :
    Holds cfg (l.recordDrip address now) passed (drips ++ [(address, now)]) (max peak now) where
  cooldown_eq := h.cooldown_eq
  window_eq := h.window_eq
  max_eq := h.max_eq
  hits := h.hits.later now
  last := h.last.insert address now

theorem few (h : Holds cfg l passed drips peak) (ip : IpAddr) :
    (l.ipHits.hitsOf ip).length ≤ l.ipMaxPerWindow := by
  rw [h.max_eq]
  exact h.hits.few ip

theorem u32 (h : Holds cfg l passed drips peak) : l.ipMaxPerWindow < 2 ^ 32 := by
  rw [h.max_eq]
  exact cfg.u32

theorem checkIp (h : Holds cfg l passed drips peak) (ip : IpAddr) (now : ℕ) :
    Holds cfg (l.checkIp ip now).1
      (if (l.checkIp ip now).2 = .allowed then passed ++ [(ip, now)] else passed) drips
      (max peak now) := by
  obtain ⟨hstate, hallowed⟩ := RateLimiter.checkIp_eq h.u32 (h.few ip) now
  have hhit := h.hits.hit ip now
  rw [← h.window_eq, ← h.max_eq] at hhit
  rw [hstate]
  constructor
  · exact h.cooldown_eq
  · exact h.window_eq
  · exact h.max_eq
  · rw [← h.window_eq, ← h.max_eq]
    simpa only [hallowed] using hhit
  · exact h.last.later now

theorem check (h : Holds cfg l passed drips peak) (ip : IpAddr) (address : Address) (now : ℕ) :
    Holds cfg (l.check ip address now).1
      (if (l.check ip address now).2 = .allowed then passed ++ [(ip, now)] else passed) drips
      (max peak now) := by
  rcases l.check_cases ip address now with ⟨last, _, _, hcheck⟩ | ⟨_, hcheck⟩
  · rw [hcheck, if_neg (by simp)]
    exact h.later now
  · rw [hcheck]
    exact h.checkIp ip now

/-- Who passes has no drip in its cooldown and room in the window. -/
theorem allowed (h : Holds cfg l passed drips peak) {ip : IpAddr} {address : Address} {now : ℕ}
    (hallowed : (l.check ip address now).2 = .allowed) :
    (∀ t, (timesOf drips address).getLast? = some t →
        inWindow cfg.addressCooldown (max peak now) t = false) ∧
      ((timesOf passed ip).filter (inWindow cfg.ipWindow (max peak now))).length <
        cfg.ipMaxPerWindow := by
  rcases l.check_cases ip address now with ⟨last, _, _, hcheck⟩ | ⟨hold, hcheck⟩
  · rw [hcheck] at hallowed
    cases hallowed
  · rw [hcheck] at hallowed
    have hhit := (RateLimiter.checkIp_eq h.u32 (h.few ip) now).2.mp hallowed
    rw [h.window_eq, h.max_eq] at hhit
    refine ⟨fun t ht => ?_, h.hits.hit_true hhit⟩
    rw [inWindow_max, Bool.and_eq_false_iff]
    cases hrecent : inWindow cfg.addressCooldown peak t with
    | false => exact .inl rfl
    | true =>
      have hkept := hold t (h.last.kept address t ht hrecent)
      rw [h.cooldown_eq] at hkept
      exact .inr hkept

theorem cooling (h : Holds cfg l passed drips peak) {ip : IpAddr} {address : Address}
    {now retry : ℕ} (hcool : (l.check ip address now).2 = .addressCooldown retry) :
    ∃ t, (timesOf drips address).getLast? = some t ∧
      inWindow cfg.addressCooldown now t = true ∧ retry = cfg.addressCooldown - (now - t) := by
  rcases l.check_cases ip address now with ⟨last, hlast, hrecent, hcheck⟩ | ⟨_, hcheck⟩
  · rw [hcheck] at hcool
    rw [h.cooldown_eq] at hcool hrecent
    exact ⟨last, h.last.true_hits address last hlast, hrecent,
      (Admission.addressCooldown.inj hcool).symm⟩
  · rw [hcheck] at hcool
    exact (RateLimiter.checkIp_ne hcool).elim

/-- Who is limited has a full window; the wait is until a hit leaves it, and no longer than until
any hit leaves that still counts. -/
theorem limited (h : Holds cfg l passed drips peak) {ip : IpAddr} {address : Address}
    {now retry : ℕ} (hlimited : (l.check ip address now).2 = .ipRateLimited retry) :
    cfg.ipMaxPerWindow ≤ ((timesOf passed ip).filter (inWindow cfg.ipWindow now)).length ∧
      ((cfg.ipMaxPerWindow = 0 ∧ retry = cfg.ipWindow) ∨
        ∃ t ∈ timesOf passed ip, inWindow cfg.ipWindow now t = true ∧
          retry = cfg.ipWindow - (now - t)) ∧
      ∀ t ∈ timesOf passed ip, inWindow cfg.ipWindow (max peak now) t = true →
        retry ≤ cfg.ipWindow - (now - t) := by
  rcases l.check_cases ip address now with ⟨last, _, _, hcheck⟩ | ⟨_, hcheck⟩
  · rw [hcheck] at hlimited
    cases hlimited
  rw [hcheck] at hlimited
  have hretry := RateLimiter.checkIp_limited hlimited
  have hhit : (l.ipHits.hit cfg.ipWindow cfg.ipMaxPerWindow ip now).2 = false := by
    rw [← h.window_eq, ← h.max_eq, Bool.eq_false_iff, ne_eq,
      ← (RateLimiter.checkIp_eq h.u32 (h.few ip) now).2, hlimited]
    simp
  have hfull : ¬((l.ipHits.hitsOf ip).filter (inWindow cfg.ipWindow now)).length <
      cfg.ipMaxPerWindow := by
    rw [← Table.hit_eq_true, hhit]
    exact Bool.false_ne_true
  rw [h.window_eq] at hretry
  refine ⟨h.hits.hit_false hhit, ?_, ?_⟩
  · cases hmin : (((l.ipHits.hitsOf ip).filter (inWindow cfg.ipWindow now)).map
      fun t => cfg.ipWindow - (now - t)).min? with
    | none =>
      have hnil := List.map_eq_nil_iff.mp (List.min?_eq_none_iff.mp hmin)
      rw [hnil, List.length_nil] at hfull
      rw [hmin] at hretry
      exact .inl ⟨by omega, hretry⟩
    | some m =>
      rw [hmin] at hretry
      obtain ⟨t, ht, hm⟩ := List.mem_map.mp (List.min?_mem hmin)
      obtain ⟨hmem, hrecent⟩ := List.mem_filter.mp ht
      exact .inr ⟨t, (h.hits.true_hits ip).subset hmem, hrecent, hretry.trans hm.symm⟩
  · intro t ht hrecent
    rw [inWindow_max, Bool.and_eq_true] at hrecent
    have hkept := (h.hits.kept ip).subset (List.mem_filter.mpr ⟨ht, hrecent.1⟩)
    have hmem := List.mem_map_of_mem (f := fun t => cfg.ipWindow - (now - t))
      (List.mem_filter.mpr ⟨hkept, hrecent.2⟩)
    rw [hretry]
    exact List.min?_getD_le_of_mem hmem

end Holds

/-! ### Runs -/

/-- The drips by their addresses. -/
def dripLog (drips : List Drip) : List (Address × ℕ) := drips.map fun d => (d.address, d.time)

theorem dripLog_concat (drips : List Drip) (d : Drip) :
    dripLog (drips ++ [d]) = dripLog drips ++ [(d.address, d.time)] := List.map_append

section
variable {cfg : Config} (parseAddress : String → Option Address)

theorem step_invalid {s : State} {ip : IpAddr} {text : String} {now : ℕ}
    (htext : parseAddress text = none) :
    step parseAddress s (.request ip text now) = (s, some .invalidAddress) := by
  rw [step, htext]

/-- A request either passes and waits, or is refused with the seconds that the limiter names. -/
theorem step_request (s : State) (ip : IpAddr) {text : String} {address : Address} (now : ℕ)
    (htext : parseAddress text = some address) :
    let check := (s.limiter.gc now).check ip address now
    (check.2 = .allowed ∧ step parseAddress s (.request ip text now) = ({ s with
        limiter := check.1
        waiting := s.waiting ++ [{ address, seen := s.drips.length }]
        passed := s.passed ++ [(ip, now)] }, none)) ∨
      (∃ retry, check.2 = .addressCooldown retry ∧ step parseAddress s (.request ip text now) =
        ({ s with limiter := check.1 },
          some (.tooMany "address on cooldown (one drip per address per window)"
            (asSecs retry)))) ∨
      ∃ retry, check.2 = .ipRateLimited retry ∧ step parseAddress s (.request ip text now) =
        ({ s with limiter := check.1 },
          some (.tooMany "per-IP request rate exceeded" (asSecs retry))) := by
  intro check
  have hstep : step parseAddress s (.request ip text now) = match check with
      | (l, .allowed) => ({ s with
          limiter := l
          waiting := s.waiting ++ [{ address, seen := s.drips.length }]
          passed := s.passed ++ [(ip, now)] }, none)
      | (l, .addressCooldown retry) => ({ s with limiter := l },
          some (.tooMany "address on cooldown (one drip per address per window)" (asSecs retry)))
      | (l, .ipRateLimited retry) => ({ s with limiter := l },
          some (.tooMany "per-IP request rate exceeded" (asSecs retry))) := by
    rw [step, htext]
  rw [hstep]
  obtain ⟨l, admission⟩ := check
  cases admission with
  | allowed => exact .inl ⟨rfl, rfl⟩
  | addressCooldown retry => exact .inr (.inl ⟨retry, rfl, rfl⟩)
  | ipRateLimited retry => exact .inr (.inr ⟨retry, rfl, rfl⟩)

/-- A request that does not wait changes nothing; one that does stops waiting, and a drip that was
sent is recorded. -/
theorem step_sent (s : State) (i : ℕ) (txHash : Option String) (now : ℕ) :
    (s.waiting[i]? = none ∧ (step parseAddress s (.sent i txHash now)).1 = s) ∨
      ∃ w, s.waiting[i]? = some w ∧ ((txHash = none ∧
          (step parseAddress s (.sent i txHash now)).1 =
            { s with waiting := s.waiting.eraseIdx i }) ∨
        ∃ hash, txHash = some hash ∧ (step parseAddress s (.sent i txHash now)).1 = { s with
          limiter := s.limiter.recordDrip w.address now
          waiting := s.waiting.eraseIdx i
          drips := s.drips ++ [{ toWaiting := w, time := now }] }) := by
  cases hw : s.waiting[i]? with
  | none => exact .inl ⟨rfl, by simp only [step, hw]⟩
  | some w =>
    cases txHash with
    | none => exact .inr ⟨w, rfl, .inl ⟨rfl, by simp only [step, hw]⟩⟩
    | some hash => exact .inr ⟨w, rfl, .inr ⟨hash, rfl, by simp only [step, hw]⟩⟩

theorem step_holds {s : State} {peak : ℕ}
    (h : Holds cfg s.limiter s.passed (dripLog s.drips) peak) (e : Event) :
    Holds cfg (step parseAddress s e).1.limiter (step parseAddress s e).1.passed
      (dripLog (step parseAddress s e).1.drips) (max peak e.now) := by
  cases e with
  | request ip text now =>
    cases htext : parseAddress text with
    | none =>
      rw [step_invalid parseAddress htext]
      exact h.later now
    | some address =>
      have hcheck := (h.gc now).check ip address now
      have hpeak : max (max peak now) now = max peak now := by omega
      rw [hpeak] at hcheck
      rcases step_request parseAddress s ip now htext with
        ⟨hadm, hstep⟩ | ⟨retry, hadm, hstep⟩ | ⟨retry, hadm, hstep⟩
      · rw [hstep]
        rwa [if_pos hadm] at hcheck
      · rw [hstep]
        rwa [if_neg (by rw [hadm]; simp)] at hcheck
      · rw [hstep]
        rwa [if_neg (by rw [hadm]; simp)] at hcheck
  | sent i txHash now =>
    rcases step_sent parseAddress s i txHash now with
      ⟨_, hstep⟩ | ⟨w, _, ⟨_, hstep⟩ | ⟨hash, _, hstep⟩⟩
    · rw [hstep]
      exact h.later now
    · rw [hstep]
      exact h.later now
    · rw [hstep, dripLog_concat]
      exact h.recordDrip w.address now

theorem run_concat (cfg : Config) (events : List Event) (e : Event) :
    run parseAddress cfg (events ++ [e]) =
      (step parseAddress (run parseAddress cfg events) e).1 := by
  unfold run
  rw [List.foldl_append, List.foldl_cons, List.foldl_nil]

theorem run_holds (cfg : Config) (events : List Event) :
    Holds cfg (run parseAddress cfg events).limiter (run parseAddress cfg events).passed
      (dripLog (run parseAddress cfg events).drips) (latestOf (events.map Event.now)) := by
  induction events using List.reverseRecOn with
  | nil => exact Holds.new cfg 0
  | append_singleton events e ih =>
    rw [run_concat, List.map_append, List.map_cons, List.map_nil, latestOf_concat]
    exact step_holds parseAddress ih e

/-- After any run, whatever the clocks read: a request waits for a drip only if its address has had
none within the cooldown and its IP has room, and is otherwise told how long until the cooldown is
over or until a request leaves the window. -/
theorem requests_admitted (cfg : Config) (events : List Event) (ip : IpAddr) (text : String)
    (now : ℕ) :
    let s := run parseAddress cfg events
    let after := step parseAddress s (.request ip text now)
    let peak := latestOf (events.map Event.now)
    let passed := timesOf s.passed ip
    (passed.filter (inWindow cfg.ipWindow peak)).length ≤ cfg.ipMaxPerWindow ∧
      (parseAddress text = none → after = (s, some .invalidAddress)) ∧
      ∀ address, parseAddress text = some address →
        let last := (timesOf (dripLog s.drips) address).getLast?
        (after.2 = none ∧ after.1.waiting = s.waiting ++ [{ address, seen := s.drips.length }] ∧
            (∀ t, last = some t → inWindow cfg.addressCooldown (max peak now) t = false) ∧
            (passed.filter (inWindow cfg.ipWindow (max peak now))).length < cfg.ipMaxPerWindow) ∨
          (∃ t, last = some t ∧ inWindow cfg.addressCooldown now t = true ∧
            after.1.waiting = s.waiting ∧
            after.2 = some (.tooMany "address on cooldown (one drip per address per window)"
              (asSecs (cfg.addressCooldown - (now - t))))) ∨
          ∃ retry, cfg.ipMaxPerWindow ≤ (passed.filter (inWindow cfg.ipWindow now)).length ∧
            ((cfg.ipMaxPerWindow = 0 ∧ retry = cfg.ipWindow) ∨
              ∃ t ∈ passed, inWindow cfg.ipWindow now t = true ∧ retry = cfg.ipWindow - (now - t)) ∧
            (∀ t ∈ passed, inWindow cfg.ipWindow (max peak now) t = true →
              retry ≤ cfg.ipWindow - (now - t)) ∧
            after.1.waiting = s.waiting ∧
            after.2 = some (.tooMany "per-IP request rate exceeded" (asSecs retry)) := by
  intro s after peak passed
  have hholds := run_holds parseAddress cfg events
  refine ⟨hholds.hits.length_le ip, step_invalid parseAddress, ?_⟩
  intro address htext last
  have hgc := hholds.gc now
  have hpeak : max (max peak now) now = max peak now := by omega
  rcases step_request parseAddress s ip now htext with
    ⟨hadm, hstep⟩ | ⟨retry, hadm, hstep⟩ | ⟨retry, hadm, hstep⟩
  · have hallowed := hgc.allowed hadm
    rw [hpeak] at hallowed
    exact .inl ⟨congrArg Prod.snd hstep, congrArg (fun p => p.1.waiting) hstep, hallowed⟩
  · obtain ⟨t, hlast, hrecent, hretry⟩ := hgc.cooling hadm
    rw [hretry] at hstep
    exact .inr (.inl ⟨t, hlast, hrecent, congrArg (fun p => p.1.waiting) hstep,
      congrArg Prod.snd hstep⟩)
  · obtain ⟨hfull, hretry, hleast⟩ := hgc.limited hadm
    rw [hpeak] at hleast
    exact .inr (.inr ⟨retry, hfull, hretry, hleast, congrArg (fun p => p.1.waiting) hstep,
      congrArg Prod.snd hstep⟩)

/-! ### Drips that did not overlap -/

/-- What was recorded when a request was checked is a cooldown before its drip. -/
structure Apart (cfg : Config) (s : State) (peak : ℕ) : Prop where
  past : ∀ e ∈ dripLog s.drips, e.2 ≤ peak
  sorted : (dripLog s.drips).Pairwise fun e e' => e.2 ≤ e'.2
  waiting : ∀ w ∈ s.waiting, w.seen ≤ s.drips.length ∧ ∀ i d, s.drips[i]? = some d → i < w.seen →
    d.address = w.address → d.time + cfg.addressCooldown ≤ peak
  seen : ∀ d ∈ s.drips, d.seen ≤ s.drips.length
  drips : ∀ (i j : ℕ) (d d' : Drip), s.drips[i]? = some d → s.drips[j]? = some d' → i < d'.seen →
    d.address = d'.address → d.time + cfg.addressCooldown ≤ d'.time

namespace Apart
variable {s s' : State} {peak peak' : ℕ}

/-- Requests may stop waiting, and time may pass. -/
theorem mono (h : Apart cfg s peak) (hle : peak ≤ peak') (hdrips : s'.drips = s.drips)
    (hwaiting : ∀ w ∈ s'.waiting, w ∈ s.waiting) : Apart cfg s' peak' where
  past := by
    rw [hdrips]
    exact fun e he => (h.past e he).trans hle
  sorted := hdrips ▸ h.sorted
  waiting := by
    intro w hw
    rw [hdrips]
    obtain ⟨hseen, hbefore⟩ := h.waiting w (hwaiting w hw)
    exact ⟨hseen, fun i d hd hi haddress => (hbefore i d hd hi haddress).trans hle⟩
  seen := hdrips ▸ h.seen
  drips := hdrips ▸ h.drips

/-- A request that passes comes a cooldown after every drip to its address. -/
theorem wait (h : Apart cfg s peak) {address : Address}
    (hold : ∀ t, (timesOf (dripLog s.drips) address).getLast? = some t →
      inWindow cfg.addressCooldown peak t = false)
    (hdrips : s'.drips = s.drips)
    (hwaiting : s'.waiting = s.waiting ++ [{ address, seen := s.drips.length }]) :
    Apart cfg s' peak where
  past := hdrips ▸ h.past
  sorted := hdrips ▸ h.sorted
  waiting := by
    intro w hw
    rw [hwaiting] at hw
    rw [hdrips]
    rcases List.mem_append.mp hw with hw | hw
    · exact h.waiting w hw
    · rw [List.mem_singleton.mp hw]
      refine ⟨Nat.le_refl _, fun i d hd _ haddress => ?_⟩
      have hmem : (address, d.time) ∈ dripLog s.drips := by
        rw [← show d.address = address from haddress]
        exact List.mem_map_of_mem (f := fun d : Drip => (d.address, d.time))
          (List.mem_of_getElem? hd)
      obtain ⟨t, hlast, hle⟩ := exists_getLast?_timesOf h.sorted hmem
      have hpast := h.past _ (mem_timesOf.mp (List.mem_of_getLast? hlast))
      have hcool := of_decide_eq_false (hold t hlast)
      simp only at hpast
      omega
  seen := hdrips ▸ h.seen
  drips := hdrips ▸ h.drips

/-- A drip is recorded at a time that is not behind. -/
theorem record (h : Apart cfg s peak) {w : Waiting} (hw : w ∈ s.waiting) {now : ℕ}
    (hnow : peak ≤ now) (hdrips : s'.drips = s.drips ++ [{ toWaiting := w, time := now }])
    (hwaiting : ∀ w' ∈ s'.waiting, w' ∈ s.waiting) : Apart cfg s' now where
  past := by
    rw [hdrips, dripLog_concat]
    intro e he
    rcases List.mem_append.mp he with he | he
    · exact (h.past e he).trans hnow
    · rw [List.mem_singleton.mp he]
  sorted := by
    rw [hdrips, dripLog_concat]
    refine List.pairwise_append.mpr ⟨h.sorted, List.pairwise_singleton _ _, fun e he e' he' => ?_⟩
    rw [List.mem_singleton.mp he']
    exact (h.past e he).trans hnow
  waiting := by
    intro w' hw'
    obtain ⟨hseen, hbefore⟩ := h.waiting w' (hwaiting w' hw')
    rw [hdrips, List.length_append]
    refine ⟨hseen.trans (Nat.le_add_right _ _), fun i d hd hi haddress => ?_⟩
    rw [List.getElem?_append_left (by omega)] at hd
    exact (hbefore i d hd hi haddress).trans hnow
  seen := by
    intro d hd
    rw [hdrips] at hd
    rw [hdrips, List.length_append]
    rcases List.mem_append.mp hd with hd | hd
    · exact (h.seen d hd).trans (Nat.le_add_right _ _)
    · rw [List.mem_singleton.mp hd]
      exact (h.waiting w hw).1.trans (Nat.le_add_right _ _)
  drips := by
    intro i j d d' hd hd' hi haddress
    rw [hdrips] at hd hd'
    have hsplit : s.drips[j]? = some d' ∨ d' = { toWaiting := w, time := now } := by
      rcases Nat.lt_or_ge j s.drips.length with hj | hj
      · rw [List.getElem?_append_left hj] at hd'
        exact .inl hd'
      · rw [List.getElem?_append_right hj] at hd'
        exact .inr (List.mem_singleton.mp (List.mem_of_getElem? hd'))
    obtain ⟨hseen, hbefore⟩ := h.waiting w hw
    rcases hsplit with hold | hnew
    · have hlen := h.seen d' (List.mem_of_getElem? hold)
      rw [List.getElem?_append_left (by omega)] at hd
      exact h.drips i j d d' hd hold hi haddress
    · rw [hnew] at hi haddress ⊢
      simp only at hi haddress ⊢
      rw [List.getElem?_append_left (by omega)] at hd
      exact (hbefore i d hd hi haddress).trans hnow

end Apart

theorem Clocked.concat {events : List Event} {e : Event} (h : Clocked (events ++ [e])) :
    Clocked events ∧ (e.records = true → latestOf (events.map Event.now) ≤ e.now) := by
  obtain ⟨hevents, _, hlast⟩ := List.pairwise_append.mp h
  refine ⟨hevents, fun hrecords => latestOf_le fun t ht => ?_⟩
  obtain ⟨e', he', hnow⟩ := List.mem_map.mp ht
  rw [← hnow]
  exact hlast e' he' e List.mem_cons_self hrecords

theorem run_apart {events : List Event} (h : Clocked events) :
    Apart cfg (run parseAddress cfg events) (latestOf (events.map Event.now)) := by
  induction events using List.reverseRecOn with
  | nil =>
    exact {
      past := fun e he => absurd he List.not_mem_nil
      sorted := List.Pairwise.nil
      waiting := fun w hw => absurd hw List.not_mem_nil
      seen := fun d hd => absurd hd List.not_mem_nil
      drips := fun i j d d' hd => by cases hd }
  | append_singleton events e ih =>
    have hold := ih h.concat.1
    have hle : latestOf (events.map Event.now) ≤ max (latestOf (events.map Event.now)) e.now :=
      Nat.le_max_left _ _
    rw [run_concat, List.map_append, List.map_cons, List.map_nil, latestOf_concat]
    cases e with
    | request ip text now =>
      cases htext : parseAddress text with
      | none =>
        rw [step_invalid parseAddress htext]
        exact hold.mono hle rfl fun _ hw => hw
      | some address =>
        have hgc := (run_holds parseAddress cfg events).gc now
        rcases step_request parseAddress (run parseAddress cfg events) ip now htext with
          ⟨hadm, hstep⟩ | ⟨retry, _, hstep⟩ | ⟨retry, _, hstep⟩
        · have hcool := (hgc.allowed hadm).1
          rw [Nat.max_assoc, Nat.max_self] at hcool
          rw [hstep]
          exact (hold.mono hle rfl fun _ hw => hw).wait hcool rfl rfl
        · rw [hstep]
          exact hold.mono hle rfl fun _ hw => hw
        · rw [hstep]
          exact hold.mono hle rfl fun _ hw => hw
    | sent i txHash now =>
      rcases step_sent parseAddress (run parseAddress cfg events) i txHash now with
        ⟨_, hstep⟩ | ⟨w, hw, ⟨_, hstep⟩ | ⟨hash, hhash, hstep⟩⟩
      · rw [hstep]
        exact hold.mono hle rfl fun _ hw => hw
      · rw [hstep]
        exact hold.mono hle rfl fun _ hw => List.mem_of_mem_eraseIdx hw
      · subst hhash
        have hnow : latestOf (events.map Event.now) ≤ now := h.concat.2 rfl
        rw [hstep]
        simp only [Event.now, Nat.max_eq_right hnow]
        exact hold.record (List.mem_of_getElem? hw) hnow rfl fun _ hw => List.mem_of_mem_eraseIdx hw

/-- Two drips to an address that are closer than its cooldown have overlapped: the later one's
request was checked before the earlier one was recorded. -/
theorem drips_apart (cfg : Config) (events : List Event) (h : Clocked events) (i j : ℕ)
    (d d' : Drip) (hd : (run parseAddress cfg events).drips[i]? = some d)
    (hd' : (run parseAddress cfg events).drips[j]? = some d') (haddress : d.address = d'.address)
    (hclose : d'.time < d.time + cfg.addressCooldown) : d'.seen ≤ i := by
  by_contra hlt
  have hapart := (run_apart parseAddress h).drips i j d d' hd hd' (Nat.lt_of_not_le hlt) haddress
  omega

end

namespace Sample

/-- A limit of five in ten nanoseconds, and a cooldown of a hundred. -/
def config : Config where
  addressCooldown := 100
  ipWindow := 10
  ipMaxPerWindow := 5
  u32 := by decide

def seven : String := "0x0000000000000000000000000000000000000007"

def eight : String := "0x0000000000000000000000000000000000000008"

def parse (text : String) : Option Address :=
  if text = seven then some 7 else if text = eight then some 8 else none

/-- After the drip to one address, the second request for the other one is checked before its first
drip is recorded. -/
def events : List Event :=
  [.request (.v4 1) eight 1, .sent 0 (some "a") 2, .request (.v4 1) seven 3,
    .request (.v4 2) "0x07" 4, .request (.v4 2) seven 5, .sent 0 (some "b") 6,
    .sent 0 (some "c") 7]

theorem drips_overlap : ∃ d d', (run parse config events).drips[1]? = some d ∧
    (run parse config events).drips[2]? = some d' ∧ d.address = 7 ∧ d'.address = 7 ∧
      0 < d'.seen ∧ d'.seen ≤ 1 := by
  have hfirst : (run parse config events).drips[1]? =
      some { toWaiting := { address := 7, seen := 1 }, time := 6 } := by decide +kernel
  have hsecond : (run parse config events).drips[2]? =
      some { toWaiting := { address := 7, seen := 1 }, time := 7 } := by decide +kernel
  exact ⟨_, _, hfirst, hsecond, rfl, rfl, Nat.one_pos, drips_apart parse config events
    (by decide +kernel) 1 2 _ _ hfirst hsecond rfl (by decide)⟩

end Sample

end Boule.Faucet
