import Servitals.Nodes

/-!
# The agent API

`hub/lib/agentapi.js`: a request is checked on its head (`checkHead`), waits for its body, and is checked again and
accepted when the body is complete (`complete`).  Between the two any other step can happen; the request keeps the
reference to its node's record.  The timestamps accepted last are kept in a file over restarts.

The two hash functions and the validation of a push are parameters.  `accepted` is a history variable: the requests
accepted, in order; a waiting request remembers how many there were (`mark`).
-/

namespace Servitals

inductive Endpoint
  | push | wait
  deriving DecidableEq

namespace Endpoint

def pathname : Endpoint → JsString
  | push => js "/api/v1/agent/push"
  | wait => js "/api/v1/agent/wait"

def method : Endpoint → JsString
  | push => js "POST"
  | wait => js "GET"

end Endpoint

/-- How a request is refused. -/
inductive Refusal
  | notFound | methodNotAllowed | queryNotAllowed | unsupportedProtocol | unknownNode | clockSkew | replay | tooLarge
  | badSignature | invalidSnapshot | rateLimited
  deriving DecidableEq

/-- The head of a request; `ip` is the client address as the hub resolved it. -/
structure Head where
  ip : JsString
  method : JsString
  url : JsString
  proto : Option JsString
  node : Option JsString
  ts : Option JsString
  sig : Option JsString
  contentLength : Option ℕ

/-- `clientIp(req) || "?"` -/
def Head.client (h : Head) : JsString := if h.ip = [] then js "?" else h.ip

/-- A request whose head was accepted, waiting for its body. -/
structure Pending where
  endpoint : Endpoint
  node : NodeId
  addr : ℕ
  who : JsString
  tsRaw : JsString
  ts : ℕ
  hubMs : ℤ
  sig : Option JsString
  mark : ℕ

/-- An accepted request. -/
structure Accepted where
  endpoint : Endpoint
  node : NodeId
  ts : ℕ
  deriving DecidableEq

/-- Failed authentications of one client. -/
structure Failures where
  n : ℕ
  til : ℤ

structure AgentApi where
  nodes : NodeStore
  lastTs : OMap (NodeId × Endpoint) ℕ
  replayFile : OMap (NodeId × Endpoint) ℕ
  failures : OMap JsString Failures
  lastPush : OMap NodeId ℤ
  pending : List Pending
  accepted : List Accepted

def MAX_SKEW_MS : ℤ := 120000
def PUSH_MIN_MS : ℤ := 5000
def FAIL_LIMIT : ℕ := 30
def FAIL_WINDOW_MS : ℤ := 60000

/-- `Number` of a string of at most 16 digits: past 2^53 the nearest even number, a tie to the multiple of 4. -/
def numberOf (digits : JsString) : ℕ :=
  let n := decimal digits
  if n ≤ 2 ^ 53 ∨ n % 2 = 0 then n else if n % 4 = 1 then n - 1 else n + 1

/-- `/^\d{1,16}$/` -/
def isTimestamp (s : JsString) : Bool := s.length != 0 && s.length ≤ 16 && s.all isDigit

namespace AgentApi

/-- A process of the hub over what the last one left in its files. -/
def start (file : Option (ℕ × OMap NodeId NodeRec)) (replayFile : OMap (NodeId × Endpoint) ℕ)
    (accepted : List Accepted) (hostname : JsString) (id : NodeId) (secret : Secret) (t : ℤ) : AgentApi where
  nodes := ((NodeStore.fromFile (file.map fun f => (f.1, some f.2))).ensureLocal hostname id secret t true).1
  lastTs := replayFile
  replayFile := replayFile
  failures := .empty
  lastPush := .empty
  pending := []
  accepted := accepted

/-- `acceptTs` -/
def acceptTs (a : AgentApi) (key : NodeId × Endpoint) (ts : ℕ) : AgentApi :=
  let lastTs := a.lastTs.set key ts
  { a with lastTs := lastTs, replayFile := lastTs }

/-- `failed` -/
def failed (a : AgentApi) (who : JsString) (t : ℤ) : AgentApi :=
  let failures := match a.failures.get? who with
    | some f => a.failures.set who (if f.til < t then ⟨1, t + FAIL_WINDOW_MS⟩ else ⟨f.n + 1, f.til⟩)
    | none => a.failures.set who ⟨1, t + FAIL_WINDOW_MS⟩
  { a with failures := if 10000 < failures.entries.length then .empty else failures }

def blocked (a : AgentApi) (who : JsString) (t : ℤ) : Bool :=
  (a.failures.get? who).any fun f => decide (t ≤ f.til) && decide (FAIL_LIMIT ≤ f.n)

/-- The endpoint of a path. -/
def endpointOf (pathname : JsString) : Option Endpoint :=
  if pathname = Endpoint.push.pathname then some .push
  else if pathname = Endpoint.wait.pathname then some .wait
  else none

/-- The path of a url: what is before its first question mark. -/
def pathOf (url : JsString) : JsString := url.takeWhile (· != 0x3f)

section

variable (c : Crypto) (valid : List UInt8 → Bool) (maxBody : ℕ)

/-- The checks on a known node's head, from the timestamp on. -/
def checkTs (a : AgentApi) (h : Head) (endpoint : Endpoint) (node : NodeId) (addr : ℕ) (who : JsString) (t : ℤ) :
    AgentApi × Except Refusal Pending :=
  let tsRaw := h.ts.getD []
  let ts := numberOf tsRaw
  if !isTimestamp tsRaw || decide (MAX_SKEW_MS < |t - ts|) then (a.failed who t, .error .clockSkew)
  else if ts ≤ (a.lastTs.get? (node, endpoint)).getD 0 then (a, .error .replay)
  else if maxBody < h.contentLength.getD 0 then (a, .error .tooLarge)
  else (a, .ok ⟨endpoint, node, addr, who, tsRaw, ts, t, h.sig, a.accepted.length⟩)

/-- A head that names no node: the failure counts for its address. -/
def refuseUnknown (a : AgentApi) (h : Head) (t : ℤ) : AgentApi × Except Refusal Pending :=
  if a.blocked h.client t then (a, .error .rateLimited) else (a.failed h.client t, .error .unknownNode)

/-- The checks on the head of a request, in the protocol's order. -/
def checkHead (a : AgentApi) (h : Head) (t : ℤ) : AgentApi × Except Refusal Pending :=
  match endpointOf (pathOf h.url) with
  | none => (a, .error .notFound)
  | some endpoint =>
    if h.method ≠ endpoint.method then (a, .error .methodNotAllowed)
    else if h.url.contains 0x3f then (a, .error .queryNotAllowed)
    else if h.proto ≠ some (js "1") then (a, .error .unsupportedProtocol)
    else
      let id := h.node.getD []
      if hid : isNodeId id = true then
        let (nodes, addr) := a.nodes.get ⟨id, hid⟩
        let a := { a with nodes := nodes }
        match addr with
        | none => a.refuseUnknown h t
        | some addr =>
          let who := h.client ++ js " " ++ id
          if a.blocked who t then (a, .error .rateLimited)
          else a.checkTs maxBody h endpoint ⟨id, hid⟩ addr who t
      else a.refuseUnknown h t

/-- The secrets that a request may be signed with: the record's, and its old one while its time is not over. -/
def candidates (n : NodeRec) (hubMs : ℤ) : List JsString :=
  n.secret :: match n.oldSecret with
    | some old => if old != [] && n.oldUntil.any (fun u => decide (hubMs < u)) then [old] else []
    | none => []

/-- The secret that a complete request is signed with.  An empty one is none, as `!secret` says. -/
def secretOf (a : AgentApi) (q : Pending) (body : List UInt8) : Option JsString :=
  (a.nodes.heap[q.addr]?).bind fun n =>
    ((candidates n q.hubMs).find? fun s =>
      c.verifyRequest s q.endpoint.method q.endpoint.pathname q.tsRaw body q.sig).filter (· != [])

/-- Does a push come too soon after the last one? -/
def tooSoon (a : AgentApi) (q : Pending) : Bool := decide (q.hubMs - (a.lastPush.get? q.node).getD 0 < PUSH_MIN_MS)

/-- The checks on a complete request: its signature, and for a push its rate and its snapshot. -/
def checkBody (a : AgentApi) (q : Pending) (body : List UInt8) : Except Refusal Unit :=
  if (a.secretOf c q body).isNone then .error .badSignature
  else match q.endpoint with
    | .wait => .ok ()
    | .push =>
      if a.tooSoon q then .error .rateLimited
      else if valid body then .ok ()
      else .error .invalidSnapshot

/-- `readLimited`: no body past `max` bytes, or from a broken connection. -/
def readLimited (body : Option (List UInt8)) : Option (List UInt8) := body.filter fun b => b.length ≤ maxBody

/-- The request is accepted: its timestamp is kept, and for a push its time. -/
def accept (a : AgentApi) (q : Pending) : AgentApi :=
  let a := a.acceptTs (q.node, q.endpoint) q.ts
  { a with
    lastPush := if q.endpoint = .push then a.lastPush.set q.node q.hubMs else a.lastPush
    accepted := a.accepted ++ [⟨q.endpoint, q.node, q.ts⟩] }

/-- What happens to a request when its body is complete. -/
def complete (a : AgentApi) (q : Pending) (body : Option (List UInt8)) (t : ℤ) : AgentApi × Except Refusal Unit :=
  match readLimited maxBody body with
  | none => (a, .error .tooLarge)
  | some body => match a.checkBody c valid q body with
    | .ok () => (a.accept q, .ok ())
    | .error .badSignature => (a.failed q.who t, .error .badSignature)
    | .error e => (a, .error e)

/-! ### Steps -/

/-- A step: a request's head arrives, a waiting request's body completes, a call of the node store, or a restart of
the hub. -/
inductive ApiOp
  | head (h : Head)
  | body (i : ℕ) (body : Option (List UInt8))
  | store (op : NodeStore.StoreOp)
  | restart (hostname : JsString) (id : NodeId) (secret : Secret)

/-- A step at a time of the hub's clock. -/
structure ApiStep where
  time : ℤ
  op : ApiOp

def step (a : AgentApi) (s : ApiStep) : AgentApi :=
  match s.op with
  | .head h => match a.checkHead maxBody h s.time with
    | (a, .ok q) => { a with pending := a.pending ++ [q] }
    | (a, .error _) => a
  | .body i body => match a.pending[i]? with
    | some q => ({ a with pending := a.pending.eraseIdx i }.complete c valid maxBody q body s.time).1
    | none => a
  | .store op => { a with nodes := a.nodes.call s.time op }
  | .restart hostname id secret => start a.nodes.readable a.replayFile a.accepted hostname id secret s.time

end

/-! ### What the checks do -/

/-- What a refused request and a request that waits leave as it is. -/
structure Same (a a' : AgentApi) : Prop where
  lastTs : a'.lastTs = a.lastTs
  replayFile : a'.replayFile = a.replayFile
  lastPush : a'.lastPush = a.lastPush
  pending : a'.pending = a.pending
  accepted : a'.accepted = a.accepted

theorem Same.refl (a : AgentApi) : a.Same a := ⟨rfl, rfl, rfl, rfl, rfl⟩

private theorem same_failed (a : AgentApi) (who : JsString) (t : ℤ) :
    a.Same (a.failed who t) := ⟨rfl, rfl, rfl, rfl, rfl⟩

variable {c : Crypto} {valid : List UInt8 → Bool} {maxBody : ℕ}

/-- A request waits for its body when its timestamp is later than the last one accepted for its node and endpoint. -/
structure Admitted (a : AgentApi) (t : ℤ) (q : Pending) : Prop where
  later : (a.lastTs.get? (q.node, q.endpoint)).getD 0 < q.ts
  hubMs : q.hubMs = t
  mark : q.mark = a.accepted.length

variable (maxBody) in
private theorem checkTs_spec (a : AgentApi) (h : Head) (endpoint : Endpoint) (node : NodeId) (addr : ℕ) (who : JsString)
    (t : ℤ) : a.Same (a.checkTs maxBody h endpoint node addr who t).1 ∧
      (a.checkTs maxBody h endpoint node addr who t).1.nodes = a.nodes ∧
      ∀ q, (a.checkTs maxBody h endpoint node addr who t).2 = .ok q →
        a.Admitted t q ∧ q.node = node ∧ q.addr = addr := by
  unfold checkTs
  dsimp only
  split
  · exact ⟨same_failed a who t, rfl, fun q hq => by cases hq⟩
  · split
    · exact ⟨.refl a, rfl, fun q hq => by cases hq⟩
    · rename_i hlater
      split
      · exact ⟨.refl a, rfl, fun q hq => by cases hq⟩
      · refine ⟨.refl a, rfl, fun q hq => ?_⟩
        cases hq
        exact ⟨⟨not_le.1 hlater, rfl, rfl⟩, rfl, rfl⟩

theorem refuseUnknown_spec (a : AgentApi) (h : Head) (t : ℤ) :
    a.Same (a.refuseUnknown h t).1 ∧ (a.refuseUnknown h t).1.nodes = a.nodes ∧
      ∀ q, (a.refuseUnknown h t).2 ≠ .ok q := by
  unfold refuseUnknown
  split
  · exact ⟨.refl a, rfl, fun q hq => by cases hq⟩
  · exact ⟨same_failed a _ t, rfl, fun q hq => by cases hq⟩

variable (maxBody) in
/-- The checks on a head change the failures counted only, and read the node store. -/
theorem checkHead_spec (a : AgentApi) (h : Head) (t : ℤ) :
    a.Same (a.checkHead maxBody h t).1 ∧
      ((a.checkHead maxBody h t).1.nodes = a.nodes ∨ (a.checkHead maxBody h t).1.nodes = a.nodes.load) ∧
      ∀ q, (a.checkHead maxBody h t).2 = .ok q →
        a.Admitted t q ∧ (a.checkHead maxBody h t).1.nodes = a.nodes.load ∧ (a.nodes.get q.node).2 = some q.addr := by
  have hload : a.Same { a with nodes := a.nodes.load } := ⟨rfl, rfl, rfl, rfl, rfl⟩
  unfold checkHead
  split
  · exact ⟨.refl a, Or.inl rfl, fun q hq => by cases hq⟩
  · split
    · exact ⟨.refl a, Or.inl rfl, fun q hq => by cases hq⟩
    · split
      · exact ⟨.refl a, Or.inl rfl, fun q hq => by cases hq⟩
      · split
        · exact ⟨.refl a, Or.inl rfl, fun q hq => by cases hq⟩
        · dsimp only
          split
          · rename_i hid
            have hnodes : (a.nodes.get ⟨h.node.getD [], hid⟩).1 = a.nodes.load := rfl
            rw [hnodes]
            split
            · obtain ⟨hsame, hn, hno⟩ := refuseUnknown_spec { a with nodes := a.nodes.load } h t
              exact ⟨⟨hsame.lastTs, hsame.replayFile, hsame.lastPush, hsame.pending, hsame.accepted⟩, Or.inr hn,
                fun q hq => absurd hq (hno q)⟩
            · rename_i addr haddr
              split
              · exact ⟨hload, Or.inr rfl, fun q hq => by cases hq⟩
              · obtain ⟨hsame, hn, hq⟩ := checkTs_spec maxBody { a with nodes := a.nodes.load } h _
                  ⟨h.node.getD [], hid⟩ addr _ t
                refine ⟨⟨hsame.lastTs, hsame.replayFile, hsame.lastPush, hsame.pending, hsame.accepted⟩, Or.inr hn,
                  fun q hok => ?_⟩
                obtain ⟨hadmitted, hnode, hqaddr⟩ := hq q hok
                refine ⟨⟨hadmitted.later, hadmitted.hubMs, hadmitted.mark⟩, hn, ?_⟩
                rw [hnode, hqaddr]
                exact haddr
          · obtain ⟨hsame, hn, hno⟩ := refuseUnknown_spec a h t
            exact ⟨hsame, Or.inl hn, fun q hq => absurd hq (hno q)⟩

variable (c valid maxBody) in
/-- A complete request is accepted when its body passes the checks, and leaves the rest as it is otherwise. -/
theorem complete_spec (a : AgentApi) (q : Pending) (body : Option (List UInt8)) (t : ℤ) :
    (∃ b, readLimited maxBody body = some b ∧ a.checkBody c valid q b = .ok () ∧
        (a.complete c valid maxBody q body t).1 = a.accept q) ∨
      (∀ b, readLimited maxBody body = some b → a.checkBody c valid q b ≠ .ok ()) ∧
        a.Same (a.complete c valid maxBody q body t).1 ∧ (a.complete c valid maxBody q body t).1.nodes = a.nodes := by
  unfold complete
  split
  · rename_i hnone
    refine Or.inr ⟨fun b hb => ?_, .refl a, rfl⟩
    rw [hnone] at hb
    cases hb
  · rename_i b hb
    have hone : ∀ e : Refusal, a.checkBody c valid q b = .error e →
        ∀ b', readLimited maxBody body = some b' → a.checkBody c valid q b' ≠ .ok () := by
      intro e he b' hb'
      obtain rfl := Option.some.inj (hb.symm.trans hb')
      rw [he]
      exact fun h => by cases h
    split
    · rename_i hok
      exact Or.inl ⟨b, hb, hok, rfl⟩
    · rename_i he
      exact Or.inr ⟨hone _ he, same_failed a q.who t, rfl⟩
    · rename_i e _ he
      exact Or.inr ⟨hone e he, .refl a, rfl⟩

/-- The step of a waiting request's body. -/
theorem step_body {a : AgentApi} {i : ℕ} {q : Pending} (hq : a.pending[i]? = some q) (body : Option (List UInt8))
    (t : ℤ) : a.step c valid maxBody ⟨t, .body i body⟩ =
      (complete c valid maxBody { a with pending := a.pending.eraseIdx i } q body t).1 := by
  unfold step
  dsimp only
  rw [hq]

/-- A body that no request waits for. -/
theorem step_body_none {a : AgentApi} {i : ℕ} (hq : a.pending[i]? = none) (body : Option (List UInt8)) (t : ℤ) :
    a.step c valid maxBody ⟨t, .body i body⟩ = a := by
  unfold step
  dsimp only
  rw [hq]

variable (c valid maxBody) in
/-- The step of a request's head: it waits, or is refused. -/
theorem step_head (a : AgentApi) (h : Head) (t : ℤ) :
    (∃ q, (a.checkHead maxBody h t).2 = .ok q ∧ a.step c valid maxBody ⟨t, .head h⟩ =
        { (a.checkHead maxBody h t).1 with pending := (a.checkHead maxBody h t).1.pending ++ [q] }) ∨
      (∀ q, (a.checkHead maxBody h t).2 ≠ .ok q) ∧
        a.step c valid maxBody ⟨t, .head h⟩ = (a.checkHead maxBody h t).1 := by
  unfold step
  dsimp only
  split
  · rename_i a' q hr
    rw [hr]
    exact Or.inl ⟨q, rfl, rfl⟩
  · rename_i a' e hr
    rw [hr]
    exact Or.inr ⟨fun q hq => (by cases hq), rfl⟩

end AgentApi

end Servitals
