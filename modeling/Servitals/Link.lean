import Servitals.AgentSig
import Servitals.Lib.OMap
import Servitals.Lib.Window

/-!
# Linking with a code

`hub/lib/link.js`: an agent starts a request and polls with its device code; a person looks the request up by its user
code and approves or denies it.  The two maps share their requests, so these are on a heap and the maps hold their
places in it.  Both codes are kept as hashes only (`hash`: the SHA-256 of Node, in hexadecimal).

`log` is a history variable that no function reads: what was started, decided, approved, handed out and answered as
unknown, in order.
-/

namespace Servitals

/-! ### Codes and keys -/

/-- `ALPHABET`: no 0/O, 1/I/L look-alikes. -/
def ALPHABET : JsString := js "ABCDEFGHJKLMNPQRSTUVWXYZ23456789"

/-- A user code as `newUserCode` draws it. -/
abbrev UserCode := { s : JsString // s.length = 8 ∧ s.all (fun u => ALPHABET.contains u) = true }

/-- What of `toUpperCase` is A to Z or 0 to 9: the letters a to z, and the few other characters whose upper case has
such letters. -/
def upperUnit (u : UInt16) : JsString :=
  if unitIn 'a' 'z' u then [u - 0x20]
  else if unitIn 'A' 'Z' u || isDigit u then [u]
  else if u = 0xdf then js "SS"
  else if u = 0x131 then js "I"
  else if u = 0x149 then js "N"
  else if u = 0x17f then js "S"
  else if u = 0x1f0 then js "J"
  else if u = 0x1e96 then js "H"
  else if u = 0x1e97 then js "T"
  else if u = 0x1e98 then js "W"
  else if u = 0x1e99 then js "Y"
  else if u = 0x1e9a then js "A"
  else if u = 0xfb00 then js "FF"
  else if u = 0xfb01 then js "FI"
  else if u = 0xfb02 then js "FL"
  else if u = 0xfb03 then js "FFI"
  else if u = 0xfb04 then js "FFL"
  else if u = 0xfb05 || u = 0xfb06 then js "ST"
  else []

/-- `normalizeCode`: in upper case, without what is no letter or digit. -/
def normalizeCode (s : JsString) : JsString := s.flatMap upperUnit

/-- `showCode`: with a dash in the middle. -/
def showCode (c : JsString) : JsString := c.take 4 ++ js "-" ++ c.drop 4

/-- `s.split("::")` -/
def splitDouble : JsString → List JsString
  | u :: v :: s =>
    if u = 0x3a ∧ v = 0x3a then [] :: splitDouble s
    else match splitDouble (v :: s) with
      | p :: ps => (u :: p) :: ps
      | [] => [[u]]
  | s => [s]

/-- `/^\d{1,3}(?:\.\d{1,3}){3}$/` -/
def isDotted (s : JsString) : Bool :=
  let parts := split 0x2e s
  parts.length == 4 && parts.all fun p => p.length != 0 && p.length ≤ 3 && p.all isDigit

/-- `g.replace(/^0+(?=.)/, "")`: without the zeros before another character of the line. -/
def dropZeros : JsString → JsString
  | u :: v :: s =>
    if u = 0x30 ∧ v ≠ 0x0a ∧ v ≠ 0x0d ∧ v ≠ 0x2028 ∧ v ≠ 0x2029 then dropZeros (v :: s) else u :: v :: s
  | s => s

/-- `addressKey`: an IPv4 address as it is, an IPv6 address by its /64. -/
def addressKey (ip : JsString) : JsString :=
  let s := lower ip
  let plain := if (js "::ffff:").isPrefixOf s then s.drop 7 else s
  if isDotted plain then plain
  else if !s.contains 0x3a then (if s = [] then js "?" else s)
  else
    let parts := splitDouble s
    let groupsOf (p : JsString) : List JsString := if p = [] then [] else split 0x3a p
    let a := groupsOf (parts.headD [])
    let b := groupsOf ((parts.tail).headD [])
    let groups := a ++ List.replicate (8 - a.length - b.length) (js "0") ++ b
    (js ":").intercalate ((groups.take 4).map dropZeros) ++ js "::/64"

/-! ### The state -/

inductive LinkStatus
  | pending | denied | approved | spent
  deriving DecidableEq

/-- What `onApprove` is given of a request. -/
structure Details where
  host : JsString
  os : JsString
  agent : JsString
  ip : JsString
  secret : JsString
  deriving DecidableEq

/-- A request; `ρ` is what the agent gets. -/
structure LinkRequest (ρ : Type*) where
  deviceHash : JsString
  userHash : JsString
  code : UserCode
  details : Details
  key : JsString
  started : ℤ
  expires : ℤ
  status : LinkStatus
  lastPoll : ℤ
  result : Option ρ

/-- An entry of the history variable; a request goes by its place on the heap. -/
inductive LinkEvent (ρ : Type*)
  | started (place : ℕ) (device : JsString) (code : UserCode) (details : Details) (key : JsString) (t : ℤ)
  | decided (place : ℕ) (approve : Bool) (t : ℤ)
  | called (place : ℕ) (details : Details) (result : Option ρ)
  | handed (place : ℕ) (device : JsString) (result : ρ)
  | unknown (keys : List JsString) (t : ℤ)
  deriving DecidableEq

/-- `createLinks`; `lastSweep` is `none` before the first sweep. -/
structure Links (ρ : Type*) where
  requests : List (LinkRequest ρ)
  byDevice : OMap JsString ℕ
  byUser : OMap JsString ℕ
  starts : OMap JsString (List ℤ)
  entries : OMap JsString (List ℤ)
  lastSweep : Option ℤ
  log : List (LinkEvent ρ)

/-- The body of an answer. -/
inductive LinkBody (ρ : Type*)
  | error (e : JsString)
  | codes (device user : JsString) (expiresIn interval : ℤ)
  | waiting
  | result (r : ρ)

structure LinkReply (ρ : Type*) where
  status : ℕ
  body : LinkBody ρ
  retryAfter : Option ℤ

namespace Links

variable {ρ : Type*}

def TTL_MS : ℤ := 600000
def INTERVAL_S : ℤ := 5
def KEEP_MS : ℤ := 2 * TTL_MS
def MAX_PENDING : ℕ := 100
def PENDING_PER_ADDRESS : ℕ := 5
def START_LIMIT : ℕ := 20
def START_WINDOW_MS : ℤ := 3600000
def ENTRY_LIMIT : ℕ := 10
def ENTRY_WINDOW_MS : ℤ := 600000
def MAX_TRACKED : ℕ := 10000
def SWEEP_EVERY_MS : ℤ := 1000

def init : Links ρ := ⟨[], .empty, .empty, .empty, .empty, none, []⟩

/-! ### Counters -/

/-- `recent`: the times of a key that are still in the window. -/
def recent (map : OMap JsString (List ℤ)) (key : JsString) (window t : ℤ) : List ℤ :=
  Window.recent window t ((map.get? key).getD [])

/-- `record`; a map that is full takes no new key. -/
def record (map : OMap JsString (List ℤ)) (key : JsString) (window t : ℤ) : OMap JsString (List ℤ) :=
  if !map.contains key && MAX_TRACKED ≤ map.entries.length then map
  else map.set key (recent map key window t ++ [t])

/-- The counters with a time inside the longer of the two windows. -/
def pruned (map : OMap JsString (List ℤ)) (t : ℤ) : OMap JsString (List ℤ) :=
  map.filter fun _ v => v.any fun x => t - x < START_WINDOW_MS

/-- One request of the sweep. -/
def sweepRequest (t : ℤ) (s : Links ρ) (e : JsString × ℕ) : Links ρ :=
  match s.requests[e.2]? with
  | none => s
  | some r =>
    let s := if r.expires + KEEP_MS < t then { s with byDevice := s.byDevice.erase e.1 } else s
    if r.expires < t ∨ r.status ≠ .pending then { s with byUser := s.byUser.erase r.userHash } else s

/-- `sweep`: expired requests and old counters go, at most once a second. -/
def sweep (s : Links ρ) (t : ℤ) : Links ρ :=
  if s.lastSweep.any fun l => t - l < SWEEP_EVERY_MS then s
  else
    let s := s.byDevice.entries.foldl (sweepRequest t) { s with lastSweep := some t }
    { s with starts := pruned s.starts t, entries := pruned s.entries t }

/-! ### Starting and polling -/

/-- What an agent asks with; a field that is no string is `none`. -/
structure Ask where
  secret : Option JsString
  host : Option JsString
  os : Option JsString
  agent : Option JsString
  ip : JsString

/-- `HOST_RE`: `/^[^\u0000-\u001f\u007f]{1,64}$/` -/
def isHost (s : JsString) : Bool := s.length != 0 && s.length ≤ 64 && s.all fun u => 0x20 ≤ u && u != 0x7f

def isWord (u : UInt16) : Bool := unitIn 'A' 'Z' u || unitIn 'a' 'z' u || isDigit u

/-- `OS_RE`: `/^[a-z0-9._-]{1,32}$/i` -/
def isOs (s : JsString) : Bool :=
  s.length != 0 && s.length ≤ 32 && s.all fun u => isWord u || u == 0x2e || u == 0x5f || u == 0x2d

/-- `AGENT_RE`: `/^[A-Za-z0-9._/+-]{1,32}$/` -/
def isAgent (s : JsString) : Bool :=
  s.length != 0 && s.length ≤ 32 &&
    s.all fun u => isWord u || u == 0x2e || u == 0x5f || u == 0x2f || u == 0x2b || u == 0x2d

/-- The fields of a well-formed start. -/
def Ask.details (a : Ask) : Option Details := do
  let secret ← a.secret.filter isHex64
  let host ← a.host.filter isHost
  let os ← a.os.filter isOs
  let agent ← a.agent.filter isAgent
  return ⟨host, os, agent, a.ip, secret⟩

/-- How many requests of a key wait for a decision. -/
def waiting (s : Links ρ) (key : JsString) (t : ℤ) : ℕ :=
  s.byUser.values.countP fun p => (s.requests[p]?).any fun r => r.key == key && r.status = .pending && t ≤ r.expires

def reply (status : ℕ) (body : LinkBody ρ) : LinkReply ρ := ⟨status, body, none⟩

/-- `start`; `device` and `codes` are drawn at random, the codes until one is not in use. -/
def start (hash : JsString → JsString) (s : Links ρ) (ask : Ask) (device : JsString) (codes : List UserCode) (t : ℤ) :
    Links ρ × Option (LinkReply ρ) :=
  match ask.details with
  | none => (s, some (reply 400 (.error (js "invalid_request"))))
  | some details =>
    let s := s.sweep t
    let key := addressKey ask.ip
    if MAX_PENDING ≤ s.byUser.entries.length ∨ (MAX_TRACKED ≤ s.starts.entries.length ∧ !s.starts.contains key) then
      (s, some ⟨503, .error (js "busy"), some 60⟩)
    else if PENDING_PER_ADDRESS ≤ s.waiting key t ∨ START_LIMIT ≤ (recent s.starts key START_WINDOW_MS t).length then
      (s, some ⟨429, .error (js "rate_limited"), some (TTL_MS / 1000)⟩)
    else
      -- the loop over the codes has not ended while none of them is free
      match codes.find? fun c => !s.byUser.contains (hash c.1) with
      | none => (s, none)
      | some code =>
        let place := s.requests.length
        let req : LinkRequest ρ := ⟨hash device, hash code.1, code, details, key, t, t + TTL_MS, .pending, 0, none⟩
        ({ s with
            starts := record s.starts key START_WINDOW_MS t
            requests := s.requests ++ [req]
            byDevice := s.byDevice.set req.deviceHash place
            byUser := s.byUser.set req.userHash place
            log := s.log ++ [.started place device code details key t] },
          some (reply 200 (.codes device (showCode code.1) (TTL_MS / 1000) INTERVAL_S)))

/-- A request of the heap, changed in place. -/
def update (s : Links ρ) (place : ℕ) (r : LinkRequest ρ) : Links ρ := { s with requests := s.requests.set place r }

def expired : LinkReply ρ := reply 410 (.error (js "expired"))

/-- The request that a device code leads to. -/
def held (hash : JsString → JsString) (s : Links ρ) (device : JsString) : Option (ℕ × LinkRequest ρ) :=
  (s.byDevice.get? (hash device)).bind fun p => (s.requests[p]?).map fun r => (p, r)

/-- `poll`; `device` is `none` when it is no string. -/
def poll (hash : JsString → JsString) (s : Links ρ) (device : Option JsString) (t : ℤ) : Links ρ × LinkReply ρ :=
  match device.filter fun d => d.length ≤ 64 with
  | none => (s, reply 400 (.error (js "invalid_request")))
  | some device =>
    let s := s.sweep t
    match s.held hash device with
    | none => (s, expired)
    | some (p, r) =>
      match r.status, r.result with
      | .spent, _ => (s, expired)
      | .denied, _ => (s, reply 410 (.error (js "denied")))
      | .approved, some res =>
        let r' := { r with status := .spent, details := { r.details with secret := [] } }
        ({ s.update p r' with log := s.log ++ [.handed p device res] }, reply 200 (.result res))
      | _, _ =>
        if r.expires < t then (s, expired)
        else
          let early := t - r.lastPoll < (INTERVAL_S - 1) * 1000
          (s.update p { r with lastPoll := t },
            if early then reply 429 (.error (js "slow_down")) else reply 202 .waiting)

/-! ### Deciding -/

/-- The person who types a code. -/
structure Who where
  ip : JsString
  account : JsString

/-- The keys a wrong code counts against. -/
def Who.keys (w : Who) : List JsString :=
  [js "ip:" ++ addressKey w.ip, js "account:" ++ if w.account = [] then js "?" else w.account]

inductive LinkRefusal
  | tooMany | unknown
  deriving DecidableEq

/-- Has a key as many wrong codes as it may have? -/
def limited (s : Links ρ) (w : Who) (t : ℤ) : Bool :=
  w.keys.any fun k => ENTRY_LIMIT ≤ (recent s.entries k ENTRY_WINDOW_MS t).length

/-- The request that a code leads to, while it can be decided. -/
def open? (hash : JsString → JsString) (s : Links ρ) (code : JsString) (t : ℤ) : Option ℕ :=
  let c := normalizeCode code
  if c.length = 8 then
    (s.byUser.get? (hash c)).filter fun p => (s.requests[p]?).any fun r => r.status = .pending && t ≤ r.expires
  else none

/-- `find`: the place of the request with the code; wrong codes count against the address and the account. -/
def find (hash : JsString → JsString) (s : Links ρ) (code : JsString) (w : Who) (t : ℤ) :
    Links ρ × Except LinkRefusal ℕ :=
  if s.limited w t then (s, .error .tooMany)
  else
    let s := s.sweep t
    match s.open? hash code t with
    | none =>
      ({ s with
          entries := w.keys.foldl (fun m k => record m k ENTRY_WINDOW_MS t) s.entries
          log := s.log ++ [.unknown w.keys t] }, .error .unknown)
    | some p => (s, .ok p)

/-- What a person is shown before the decision. -/
structure Lookup where
  code : JsString
  host : JsString
  os : JsString
  agent : JsString
  ip : JsString
  started : ℤ
  expires : ℤ

def LinkRequest.shown (r : LinkRequest ρ) : Lookup :=
  ⟨showCode r.code.1, r.details.host, r.details.os, r.details.agent, r.details.ip, r.started, r.expires⟩

/-- `lookup` -/
def lookup (hash : JsString → JsString) (s : Links ρ) (code : JsString) (w : Who) (t : ℤ) :
    Links ρ × Except LinkRefusal (Option Lookup) :=
  let f := s.find hash code w t
  (f.1, f.2.map fun p => (f.1.requests[p]?).map LinkRequest.shown)

/-- The answer to a decision: refused, denied, or approved with what `onApprove` returned; `threw` when it threw. -/
inductive Decision (ρ : Type*)
  | refused (e : LinkRefusal)
  | denied (host source : JsString)
  | approved (host source : JsString) (result : ρ)
  | threw

/-- `decide`; `onApprove` returns `none` when it throws. -/
def decide (hash : JsString → JsString) (s : Links ρ) (code : JsString) (approve : Bool) (w : Who)
    (onApprove : Details → Option ρ) (t : ℤ) : Links ρ × Decision ρ :=
  match s.find hash code w t with
  | (s, .error e) => (s, .refused e)
  | (s, .ok p) => match s.requests[p]? with
    | none => (s, .refused .unknown)
    | some r =>
      let s := { s with byUser := s.byUser.erase r.userHash, log := s.log ++ [LinkEvent.decided p approve t] }
      if !approve then
        (s.update p { r with status := .denied, details := { r.details with secret := [] } },
          .denied r.details.host r.details.ip)
      else
        let s := { s with log := s.log ++ [LinkEvent.called p r.details (onApprove r.details)] }
        match onApprove r.details with
        | none => (s, .threw)
        | some res => (s.update p { r with result := some res, status := .approved },
            .approved r.details.host r.details.ip res)

/-! ### Runs -/

inductive LinkOp (ρ : Type*)
  | start (ask : Ask) (device : JsString) (codes : List UserCode)
  | poll (device : Option JsString)
  | lookup (code : JsString) (w : Who)
  | decide (code : JsString) (approve : Bool) (w : Who) (onApprove : Details → Option ρ)

/-- A call at a time of the hub's clock. -/
structure LinkStep (ρ : Type*) where
  time : ℤ
  op : LinkOp ρ

def step (hash : JsString → JsString) (s : Links ρ) (c : LinkStep ρ) : Links ρ :=
  match c.op with
  | .start ask device codes => (s.start hash ask device codes c.time).1
  | .poll device => (s.poll hash device c.time).1
  | .lookup code w => (s.lookup hash code w c.time).1
  | .decide code approve w onApprove => (s.decide hash code approve w onApprove c.time).1

end Links

end Servitals
