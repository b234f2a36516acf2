import Boule.ConnectionLimits
import Boule.Lib.SlidingWindow
import Boule.Reth.PredeployLogs

/-! The public proxy of the execution node's RPC: a limiter per IP, then a list of methods that may
be forwarded. A request reads its clock before it takes the lock, so that the times the limiter
sees need not come in order; the parser of `serde_json` is a parameter. -/
namespace Boule

/-- `Value::get` with a key; arrays and scalars have none. -/
def JsonValue.get (v : JsonValue) (key : String) : Option JsonValue :=
  match v with
  | object fields => (fields.find? (·.1 = key)).map Prod.snd
  | _ => none

def allowedMethods : List String :=
  ["eth_chainId", "eth_blockNumber", "eth_getBalance", "eth_getCode", "eth_getStorageAt",
    "eth_getTransactionCount", "eth_getBlockByHash", "eth_getBlockByNumber",
    "eth_getBlockTransactionCountByHash", "eth_getBlockTransactionCountByNumber",
    "eth_getTransactionByHash", "eth_getTransactionByBlockHashAndIndex",
    "eth_getTransactionByBlockNumberAndIndex", "eth_getTransactionReceipt", "eth_getLogs",
    "eth_gasPrice", "eth_maxPriorityFeePerGas", "eth_feeHistory", "eth_estimateGas", "eth_call",
    "eth_sendRawTransaction", "net_version", "net_listening", "net_peerCount",
    "web3_clientVersion", "web3_sha3"]

def isAllowed (method : String) : Bool := allowedMethods.contains method

/-- Of `PublicRpcConfig`, without the URL; times are in nanoseconds. -/
structure PublicRpcConfig where
  maxBatch : ℕ
  maxBodyBytes : ℕ
  ipWindow : ℕ
  ipMaxPerWindow : ℕ
  u32 : ipMaxPerWindow < 2 ^ 32

structure RpcRateLimiter where
  window : ℕ
  maxPerWindow : ℕ
  hits : Table IpAddr (List ℕ)

namespace RpcRateLimiter

def new (cfg : PublicRpcConfig) : RpcRateLimiter where
  window := cfg.ipWindow
  maxPerWindow := cfg.ipMaxPerWindow
  hits := ∅

/-- `admit`; the number of hits is cut to 32 bits. -/
def admitHit (l : RpcRateLimiter) (ip : IpAddr) (now : ℕ) : RpcRateLimiter × Bool :=
  let hits := (l.hits.hitsOf ip).filter (inWindow l.window now)
  if l.maxPerWindow ≤ hits.length % 2 ^ 32 then
    ({ l with hits := l.hits.insert ip hits }, false)
  else ({ l with hits := l.hits.insert ip (hits ++ [now]) }, true)

def gc (l : RpcRateLimiter) (now : ℕ) : RpcRateLimiter :=
  { l with hits := l.hits.dropIdle l.window now }

/-- No list of hits is long enough to be cut. -/
theorem admitHit_eq {l : RpcRateLimiter} (hmax : l.maxPerWindow < 2 ^ 32) {ip : IpAddr}
    (hfew : (l.hits.hitsOf ip).length ≤ l.maxPerWindow) (now : ℕ) :
    l.admitHit ip now = ({ l with hits := (l.hits.hit l.window l.maxPerWindow ip now).1 },
      (l.hits.hit l.window l.maxPerWindow ip now).2) := by
  have hlen := List.length_filter_le (inWindow l.window now) (l.hits.hitsOf ip)
  unfold admitHit Table.hit
  simp only
  rw [Nat.mod_eq_of_lt (by omega)]
  split_ifs with hfull
  · rfl
  · rfl

end RpcRateLimiter

inductive Rejection
  | bodyTooLarge
  | malformed
  | batchTooLarge
  | methodNotAllowed
  deriving DecidableEq

def checkMethod (item : JsonValue) : Except Rejection Unit :=
  match (item.get "method").bind JsonValue.asStr with
  | none => .error .malformed
  | some method => if isAllowed method then .ok () else .error .methodNotAllowed

def validatePayload (payload : JsonValue) (maxBatch : ℕ) : Except Rejection Unit :=
  match payload with
  | .array items =>
    if items.isEmpty || maxBatch < items.length then .error .batchTooLarge
    else forM items checkMethod
  | .object fields => checkMethod (.object fields)
  | _ => .error .malformed

/-- `check_one` -/
def deniedMethod (v : JsonValue) : Option String :=
  ((v.get "method").bind JsonValue.asStr).filter fun m => !isAllowed m

def firstDeniedMethod (payload : JsonValue) : Option String :=
  match payload with
  | .array items => items.findSome? deniedMethod
  | other => deniedMethod other

def rejectionToJsonrpc (rej : Rejection) (id : JsonValue) : JsonValue :=
  let (code, msg) := match rej with
    | .bodyTooLarge => ("-32600", "request body too large")
    | .malformed => ("-32700", "parse error")
    | .batchTooLarge => ("-32600", "batch too large")
    | .methodNotAllowed => ("-32601", "method not found on public endpoint")
  .object [("jsonrpc", .string "2.0"), ("id", id),
    ("error", .object [("code", .number code), ("message", .string msg)])]

def singleRequestId (payload : JsonValue) : JsonValue := (payload.get "id").getD .null

/-- What the handler has done when it answers or calls `eth_raw`. -/
inductive ProxyOutcome
  /-- With the method that the warning names. -/
  | answered (status : ℕ) (body : JsonValue) (denied : Option String)
  | forwarded (payload echoId : JsonValue)

namespace ProxyOutcome

/-- `StatusCode::TOO_MANY_REQUESTS` -/
def tooMany : ProxyOutcome → Bool
  | answered status _ _ => status = 429
  | forwarded _ _ => false

/-- The end of the handler, after `eth_raw` has returned. -/
def response (outcome : ProxyOutcome) (upstream : Option JsonValue) : ℕ × JsonValue :=
  match outcome with
  | answered status body _ => (status, body)
  | forwarded _ echoId =>
    match upstream with
    | some resp => (200, resp)
    | none => (502, .object [("jsonrpc", .string "2.0"), ("id", echoId),
        ("error", .object [("code", .number "-32603"), ("message", .string "upstream RPC error")])])

end ProxyOutcome

def jsonrpcError (rej : Rejection) (id : JsonValue) (denied : Option String) : ProxyOutcome :=
  .answered 200 (rejectionToJsonrpc rej id) denied

/-- A call of the handler. -/
structure ProxyRequest where
  ip : IpAddr
  now : ℕ
  body : Bytes

section
variable (cfg : PublicRpcConfig) (fromSlice : Bytes → Option JsonValue)

/-- `rpc_proxy_handler` behind the limiter. -/
def proxyBody (body : Bytes) : ProxyOutcome :=
  if cfg.maxBodyBytes < body.length then jsonrpcError .bodyTooLarge .null none
  else
    match fromSlice body with
    | none => jsonrpcError .malformed .null none
    | some payload =>
      match validatePayload payload cfg.maxBatch with
      | .error rej => jsonrpcError rej (singleRequestId payload)
          (if rej = .methodNotAllowed then firstDeniedMethod payload else none)
      | .ok () => .forwarded payload (singleRequestId payload)

/-- `rpc_proxy_handler` up to `eth_raw`. -/
def rpcProxyHandler (l : RpcRateLimiter) (r : ProxyRequest) : RpcRateLimiter × ProxyOutcome :=
  match (l.gc r.now).admitHit r.ip r.now with
  | (l', false) => (l', .answered 429 (rejectionToJsonrpc .batchTooLarge .null) none)
  | (l', true) => (l', proxyBody cfg fromSlice r.body)

/-- The limiter after requests in the order of its lock, and what each has come to. -/
def proxyRun : List ProxyRequest → RpcRateLimiter × List (ProxyRequest × ProxyOutcome) :=
  List.foldl (fun s r =>
    let (l, outcome) := rpcProxyHandler cfg fromSlice s.1 r
    (l, s.2 ++ [(r, outcome)])) (RpcRateLimiter.new cfg, [])

end

/-- The requests that the limiter has let pass. -/
def letPass (served : List (ProxyRequest × ProxyOutcome)) : List (IpAddr × ℕ) :=
  (served.filter fun e => !e.2.tooMany).map fun e => (e.1.ip, e.1.now)

/-- The latest reading of a clock. -/
def latestOf (times : List ℕ) : ℕ := times.foldl max 0

/-- Only calls of methods on the list, one or a batch of them. -/
def OnlyAllowed (maxBatch : ℕ) (payload : JsonValue) : Prop :=
  let Allowed := fun v : JsonValue => ∃ m ∈ allowedMethods, v.get "method" = some (.string m)
  (∃ fields, payload = .object fields ∧ Allowed payload) ∨
    ∃ items, payload = .array items ∧ 0 < items.length ∧ items.length ≤ maxBatch ∧
      ∀ item ∈ items, Allowed item

/-- A call of the payload is to the method. -/
def Calls (payload : JsonValue) (m : String) : Prop :=
  (∃ fields, payload = .object fields ∧ payload.get "method" = some (.string m)) ∨
    ∃ items, payload = .array items ∧ ∃ item ∈ items, item.get "method" = some (.string m)

/-! ### What is forwarded -/

theorem isAllowed_iff {m : String} : isAllowed m = true ↔ m ∈ allowedMethods :=
  List.contains_iff_mem

theorem method_eq_some {v : JsonValue} {m : String} :
    (v.get "method").bind JsonValue.asStr = some m ↔ v.get "method" = some (.string m) := by
  cases hv : v.get "method" with
  | none => simp
  | some w =>
    rw [Option.bind_some, PredeployLog.asStr_eq_some, Option.some.injEq]

theorem checkMethod_ok {v : JsonValue} : checkMethod v = .ok () ↔
    ∃ m ∈ allowedMethods, v.get "method" = some (.string m) := by
  unfold checkMethod
  cases hm : (v.get "method").bind JsonValue.asStr with
  | none =>
    constructor
    · intro h
      cases h
    · intro ⟨m, _, hv⟩
      rw [method_eq_some.mpr hv] at hm
      cases hm
  | some m =>
    have hv := method_eq_some.mp hm
    simp only
    constructor
    · intro h
      split_ifs at h with hallowed
      exact ⟨m, isAllowed_iff.mp hallowed, hv⟩
    · intro ⟨m', hm', hv'⟩
      have hsame : m = m' := by simpa using hv.symm.trans hv'
      rw [hsame, if_pos (isAllowed_iff.mpr hm')]

theorem checkMethod_denied {v : JsonValue} (h : checkMethod v = .error .methodNotAllowed) :
    ∃ m, m ∉ allowedMethods ∧ v.get "method" = some (.string m) ∧ deniedMethod v = some m := by
  unfold checkMethod at h
  cases hm : (v.get "method").bind JsonValue.asStr with
  | none =>
    rw [hm] at h
    cases h
  | some m =>
    rw [hm] at h
    simp only at h
    split_ifs at h with hallowed
    refine ⟨m, fun hmem => hallowed (isAllowed_iff.mpr hmem), method_eq_some.mp hm, ?_⟩
    rw [deniedMethod, hm]
    simpa using hallowed

theorem forM_checkMethod_ok {items : List JsonValue} : forM items checkMethod = .ok () ↔
    ∀ item ∈ items, checkMethod item = .ok () := by
  induction items with
  | nil => simp [pure, Except.pure]
  | cons item items ih =>
    rw [List.forM_cons, List.forall_mem_cons, ← ih]
    cases checkMethod item <;> simp [bind, Except.bind]

/-- The first call that fails is the one that the warning names: those before it are allowed. -/
theorem forM_checkMethod_denied {items : List JsonValue}
    (h : forM items checkMethod = .error .methodNotAllowed) :
    ∃ item ∈ items, ∃ m, m ∉ allowedMethods ∧ item.get "method" = some (.string m) ∧
      items.findSome? deniedMethod = some m := by
  induction items with
  | nil => cases h
  | cons item items ih =>
    rw [List.forM_cons] at h
    cases hitem : checkMethod item with
    | error rej =>
      rw [hitem] at h
      obtain rfl : rej = .methodNotAllowed := by simpa [bind, Except.bind] using h
      obtain ⟨m, hm, hget, hdenied⟩ := checkMethod_denied hitem
      exact ⟨item, List.mem_cons_self, m, hm, hget, by simp [hdenied]⟩
    | ok _ =>
      rw [hitem] at h
      obtain ⟨item', hmem, m, hm, hget, hfind⟩ := ih h
      obtain ⟨m', hm', hget'⟩ := checkMethod_ok.mp hitem
      have hnone : deniedMethod item = none := by
        rw [deniedMethod, method_eq_some.mpr hget']
        simp [isAllowed_iff.mpr hm']
      exact ⟨item', List.mem_cons_of_mem _ hmem, m, hm, hget, by simp [hnone, hfind]⟩

theorem validatePayload_ok {payload : JsonValue} {maxBatch : ℕ} :
    validatePayload payload maxBatch = .ok () ↔ OnlyAllowed maxBatch payload := by
  unfold OnlyAllowed
  cases payload with
  | array items =>
    have hsize : (items.isEmpty || decide (maxBatch < items.length)) = true ↔
        ¬(0 < items.length ∧ items.length ≤ maxBatch) := by
      rw [Bool.or_eq_true, List.isEmpty_iff_length_eq_zero, decide_eq_true_iff]
      omega
    rw [validatePayload]
    by_cases hlen : 0 < items.length ∧ items.length ≤ maxBatch
    · rw [if_neg (fun h => hsize.mp h hlen), forM_checkMethod_ok]
      simp [checkMethod_ok, hlen.1, hlen.2]
    · rw [if_pos (hsize.mpr hlen)]
      simp only [reduceCtorEq, false_and, exists_false, false_or, JsonValue.array.injEq,
        exists_eq_left', false_iff]
      exact fun h => hlen ⟨h.1, h.2.1⟩
  | object fields => simp [validatePayload, checkMethod_ok]
  | _ => simp [validatePayload]

/-- A refusal for a method always names one. -/
theorem validatePayload_denied {payload : JsonValue} {maxBatch : ℕ}
    (h : validatePayload payload maxBatch = .error .methodNotAllowed) :
    ∃ m, m ∉ allowedMethods ∧ firstDeniedMethod payload = some m ∧ Calls payload m := by
  cases payload with
  | array items =>
    rw [validatePayload] at h
    split_ifs at h
    · cases h
    obtain ⟨item, hmem, m, hm, hget, hfind⟩ := forM_checkMethod_denied h
    exact ⟨m, hm, hfind, .inr ⟨items, rfl, item, hmem, hget⟩⟩
  | object fields =>
    obtain ⟨m, hm, hget, hdenied⟩ := checkMethod_denied h
    exact ⟨m, hm, hdenied, .inl ⟨fields, rfl, hget⟩⟩
  | _ => cases h

section
variable (cfg : PublicRpcConfig) (fromSlice : Bytes → Option JsonValue)

theorem proxyBody_tooMany (body : Bytes) : (proxyBody cfg fromSlice body).tooMany = false := by
  unfold proxyBody
  split_ifs
  · rfl
  · cases fromSlice body with
    | none => rfl
    | some payload =>
      simp only
      cases validatePayload payload cfg.maxBatch with
      | error rej => rfl
      | ok _ => rfl

theorem proxyBody_forwarded (body : Bytes) (payload : JsonValue) :
    (∃ echoId, proxyBody cfg fromSlice body = .forwarded payload echoId) ↔
      body.length ≤ cfg.maxBodyBytes ∧ fromSlice body = some payload ∧
        OnlyAllowed cfg.maxBatch payload := by
  rw [← validatePayload_ok]
  unfold proxyBody
  split_ifs with hlen
  · simp [jsonrpcError, Nat.not_le.mpr hlen]
  · cases hparse : fromSlice body with
    | none => simp [jsonrpcError]
    | some payload' =>
      simp only
      cases hvalid : validatePayload payload' cfg.maxBatch with
      | error rej =>
        simp only [jsonrpcError, reduceCtorEq, exists_false, Option.some.injEq, false_iff]
        intro ⟨_, hsame, hok⟩
        rw [← hsame, hvalid] at hok
        cases hok
      | ok _ =>
        simp only [ProxyOutcome.forwarded.injEq, exists_and_left, exists_eq', and_true,
          Option.some.injEq]
        constructor
        · intro hsame
          exact ⟨Nat.le_of_not_lt hlen, hsame, hsame ▸ hvalid⟩
        · intro h
          exact h.2.1

theorem rejection_eq {rej rej' : Rejection} {id id' : JsonValue}
    (h : rejectionToJsonrpc rej id = rejectionToJsonrpc rej' id') : rej = rej' := by
  cases rej <;> cases rej' <;> simp [rejectionToJsonrpc] at h ⊢

theorem proxyBody_denied {body : Bytes} {status : ℕ} {id : JsonValue} {denied : Option String}
    (h : proxyBody cfg fromSlice body =
      .answered status (rejectionToJsonrpc .methodNotAllowed id) denied) :
    ∃ payload m, fromSlice body = some payload ∧ Calls payload m ∧ m ∉ allowedMethods ∧
      denied = some m := by
  unfold proxyBody at h
  split_ifs at h with hlen
  · have hrej := rejection_eq (ProxyOutcome.answered.inj h).2.1
    cases hrej
  · cases hparse : fromSlice body with
    | none =>
      rw [hparse] at h
      have hrej := rejection_eq (ProxyOutcome.answered.inj h).2.1
      cases hrej
    | some payload =>
      rw [hparse] at h
      simp only at h
      cases hvalid : validatePayload payload cfg.maxBatch with
      | ok _ =>
        rw [hvalid] at h
        cases h
      | error rej =>
        rw [hvalid] at h
        have hrej := rejection_eq (ProxyOutcome.answered.inj h).2.1
        subst hrej
        obtain ⟨m, hm, hfirst, hcalls⟩ := validatePayload_denied hvalid
        have hdenied := (ProxyOutcome.answered.inj h).2.2
        rw [if_pos rfl, hfirst] at hdenied
        exact ⟨payload, m, rfl, hcalls, hm, hdenied.symm⟩

/-! ### Runs -/

theorem proxyRun_concat (reqs : List ProxyRequest) (r : ProxyRequest) :
    proxyRun cfg fromSlice (reqs ++ [r]) =
      ((rpcProxyHandler cfg fromSlice (proxyRun cfg fromSlice reqs).1 r).1,
        (proxyRun cfg fromSlice reqs).2 ++
          [(r, (rpcProxyHandler cfg fromSlice (proxyRun cfg fromSlice reqs).1 r).2)]) := by
  unfold proxyRun
  rw [List.foldl_append, List.foldl_cons, List.foldl_nil]

/-- What the limiter holds after the requests so far. -/
structure LimiterKeeps (reqs : List ProxyRequest) : Prop where
  window : (proxyRun cfg fromSlice reqs).1.window = cfg.ipWindow
  maxPerWindow : (proxyRun cfg fromSlice reqs).1.maxPerWindow = cfg.ipMaxPerWindow
  remembers : RemembersHits cfg.ipWindow cfg.ipMaxPerWindow
    (letPass (proxyRun cfg fromSlice reqs).2) (proxyRun cfg fromSlice reqs).1.hits
    (latestOf (reqs.map ProxyRequest.now))

variable {cfg} {fromSlice}

/-- The handler lets a request pass exactly when its IP has room in the table. -/
theorem rpcProxyHandler_eq {reqs : List ProxyRequest} (h : LimiterKeeps cfg fromSlice reqs)
    (r : ProxyRequest) :
    let l := (proxyRun cfg fromSlice reqs).1
    let hit := (l.hits.dropIdle cfg.ipWindow r.now).hit cfg.ipWindow cfg.ipMaxPerWindow r.ip r.now
    rpcProxyHandler cfg fromSlice l r =
      ({ l with hits := hit.1 },
        if hit.2 then proxyBody cfg fromSlice r.body
        else .answered 429 (rejectionToJsonrpc .batchTooLarge .null) none) := by
  intro l hit
  have hwindow : l.window = cfg.ipWindow := h.window
  have hmax : l.maxPerWindow = cfg.ipMaxPerWindow := h.maxPerWindow
  have hfew : ((l.hits.dropIdle l.window r.now).hitsOf r.ip).length ≤ l.maxPerWindow := by
    rw [hwindow, hmax]
    exact (h.remembers.dropIdle r.now).few r.ip
  have hlt : l.maxPerWindow < 2 ^ 32 := hmax ▸ cfg.u32
  have hhits : (l.gc r.now).admitHit r.ip r.now = ({ l with hits := hit.1 }, hit.2) := by
    rw [RpcRateLimiter.admitHit_eq (l := l.gc r.now) hlt hfew, RpcRateLimiter.gc]
    simp only
    rw [hwindow, hmax]
  rw [rpcProxyHandler, hhits]
  cases hhit : hit.2 with
  | true => rfl
  | false => rfl

theorem tooMany_rpcProxyHandler {reqs : List ProxyRequest} (h : LimiterKeeps cfg fromSlice reqs)
    (r : ProxyRequest) :
    (rpcProxyHandler cfg fromSlice (proxyRun cfg fromSlice reqs).1 r).2.tooMany =
      !(((proxyRun cfg fromSlice reqs).1.hits.dropIdle cfg.ipWindow r.now).hit cfg.ipWindow
        cfg.ipMaxPerWindow r.ip r.now).2 := by
  rw [rpcProxyHandler_eq h r]
  simp only
  split_ifs with hhit
  · rw [proxyBody_tooMany, hhit]
    rfl
  · rw [Bool.eq_false_of_not_eq_true hhit]
    rfl

theorem letPass_concat (served : List (ProxyRequest × ProxyOutcome)) (r : ProxyRequest)
    (outcome : ProxyOutcome) : letPass (served ++ [(r, outcome)]) =
      if outcome.tooMany then letPass served else letPass served ++ [(r.ip, r.now)] := by
  unfold letPass
  rw [List.filter_append, List.map_append]
  cases houtcome : outcome.tooMany with
  | true => simp [houtcome]
  | false => simp [houtcome]

theorem latestOf_concat (times : List ℕ) (t : ℕ) :
    latestOf (times ++ [t]) = max (latestOf times) t := by
  unfold latestOf
  rw [List.foldl_append, List.foldl_cons, List.foldl_nil]

theorem latestOf_le {times : List ℕ} {now : ℕ} (h : ∀ t ∈ times, t ≤ now) :
    latestOf times ≤ now := by
  induction times using List.reverseRecOn with
  | nil => exact Nat.zero_le _
  | append_singleton times t ih =>
    rw [latestOf_concat]
    exact Nat.max_le.mpr ⟨ih fun t' ht => h t' (List.mem_append_left _ ht),
      h t (List.mem_append_right _ List.mem_cons_self)⟩

variable (cfg fromSlice) in
theorem limiterKeeps (reqs : List ProxyRequest) : LimiterKeeps cfg fromSlice reqs := by
  induction reqs using List.reverseRecOn with
  | nil =>
    exact { window := rfl, maxPerWindow := rfl, remembers := RemembersHits.empty _ _ _ }
  | append_singleton reqs r ih =>
    have hhits := (ih.remembers.dropIdle r.now).hit r.ip r.now
    have hpeak : max (max (latestOf (reqs.map ProxyRequest.now)) r.now) r.now =
        latestOf ((reqs ++ [r]).map ProxyRequest.now) := by
      rw [List.map_append, List.map_cons, List.map_nil, latestOf_concat]
      omega
    rw [hpeak] at hhits
    have hstep := rpcProxyHandler_eq ih r
    have hlog : letPass (proxyRun cfg fromSlice (reqs ++ [r])).2 =
        if (((proxyRun cfg fromSlice reqs).1.hits.dropIdle cfg.ipWindow r.now).hit cfg.ipWindow
          cfg.ipMaxPerWindow r.ip r.now).2 then
          letPass (proxyRun cfg fromSlice reqs).2 ++ [(r.ip, r.now)]
        else letPass (proxyRun cfg fromSlice reqs).2 := by
      rw [proxyRun_concat, letPass_concat, tooMany_rpcProxyHandler ih]
      split_ifs <;> simp_all
    constructor
    · rw [proxyRun_concat, hstep]
      exact ih.window
    · rw [proxyRun_concat, hstep]
      exact ih.maxPerWindow
    · rw [hlog, proxyRun_concat, hstep]
      exact hhits

variable (cfg fromSlice) in
/-- Over any run of requests, whatever their clocks read: a request passes only if its IP has had
fewer than the limit let pass in the window before the latest reading, and is refused only if its
own window is full; what has passed is forwarded exactly if it is one call or a batch of calls of
methods on the list, and a refusal for the method names one that was called. -/
theorem requests_proxied (reqs : List ProxyRequest) (r : ProxyRequest) :
    let run := proxyRun cfg fromSlice reqs
    let outcome := (rpcProxyHandler cfg fromSlice run.1 r).2
    let passed := timesOf (letPass run.2) r.ip
    let peak := latestOf (reqs.map ProxyRequest.now)
    (passed.filter (inWindow cfg.ipWindow peak)).length ≤ cfg.ipMaxPerWindow ∧
      (outcome.tooMany = false →
        (passed.filter (inWindow cfg.ipWindow (max peak r.now))).length < cfg.ipMaxPerWindow) ∧
      (outcome.tooMany = true →
        cfg.ipMaxPerWindow ≤ (passed.filter (inWindow cfg.ipWindow r.now)).length) ∧
      (∀ payload, (∃ echoId, outcome = .forwarded payload echoId) ↔ outcome.tooMany = false ∧
        r.body.length ≤ cfg.maxBodyBytes ∧ fromSlice r.body = some payload ∧
          OnlyAllowed cfg.maxBatch payload) ∧
      ∀ status id denied,
        outcome = .answered status (rejectionToJsonrpc .methodNotAllowed id) denied →
          ∃ payload m, fromSlice r.body = some payload ∧ Calls payload m ∧ m ∉ allowedMethods ∧
            denied = some m := by
  intro run outcome passed peak
  have hkeeps := limiterKeeps cfg fromSlice reqs
  have hidle := hkeeps.remembers.dropIdle r.now
  have hpeak : max (max peak r.now) r.now = max peak r.now := by omega
  have htoo : outcome.tooMany = !_ := tooMany_rpcProxyHandler hkeeps r
  have houtcome : outcome = if _ then _ else _ := congrArg Prod.snd (rpcProxyHandler_eq hkeeps r)
  refine ⟨hkeeps.remembers.length_le r.ip, ?_, ?_, ?_, ?_⟩
  · intro hfalse
    rw [htoo, Bool.not_eq_false'] at hfalse
    have hroom := hidle.hit_true hfalse
    rwa [hpeak] at hroom
  · intro htrue
    rw [htoo, Bool.not_eq_true'] at htrue
    exact hidle.hit_false htrue
  · intro payload
    cases hfull : outcome.tooMany with
    | true =>
      rw [houtcome, if_neg]
      · simp
      · rwa [htoo, Bool.not_eq_true', ← Bool.not_eq_true] at hfull
    | false =>
      rw [houtcome, if_pos, proxyBody_forwarded]
      · simp
      · rwa [htoo, Bool.not_eq_false'] at hfull
  · intro status id denied hdenied
    rw [houtcome] at hdenied
    split_ifs at hdenied with hhit
    · exact proxyBody_denied cfg fromSlice hdenied
    · have hrej := rejection_eq (ProxyOutcome.answered.inj hdenied).2.1
      cases hrej

end

end Boule
