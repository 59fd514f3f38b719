import Servitals.LinkFlow
import Servitals.NodeFile

/-!
# Linking servers to a hub

The hub's side of the device flow with its node store, and any number of `servitals-agent link` runs over a network that
loses requests and answers: `linkRoute` and `handleLinkApi` of `hub/server.js`, `cmd_link` and `pair` of
`bin/servitals-agent`.  Other programs call the hub too, and the store changes otherwise.

An agent that has an id has its own: the hub added the node with the secret that this agent sent, after a person approved
this agent's code, no other agent has the id, and until the node is revoked or rotated the hub knows it by that secret
(`linked_soundly`).  An answer that is lost after the result was handed out leaves a node that no agent has.

An agent reads its own clock: a poll says whether its time was over.  Left out are the transport check, the texts an
agent prints, and what the test push of `pair` sends.
-/

namespace Servitals

/-- Where a run of `servitals-agent link` is: it has asked nothing, waits for the approval, has its id, has saved its
credentials, or is over. -/
inductive LinkPhase
  | new | waiting
  | linked (id : NodeId)
  | saved (id : NodeId)
  | ended
  deriving DecidableEq

/-- A run of `servitals-agent link`; `device` is the shell's variable, empty before the hub gave one. -/
structure LinkAgent where
  secret : Secret
  host : JsString
  os : JsString
  agent : JsString
  ip : JsString
  device : JsString
  phase : LinkPhase

/-- What becomes of a request to the hub: it is lost, its answer is, or the answer is heard. -/
inductive Trip
  | lost | unheard | heard

namespace LinkAgent

/-- `start.json`, and the address the hub sees. -/
def ask (a : LinkAgent) : Links.Ask := ⟨some a.secret.1, some a.host, some a.os, some a.agent, a.ip⟩

def details (a : LinkAgent) : Details := ⟨a.host, a.os, a.agent, a.ip, a.secret.1⟩

/-- `/^[A-Za-z0-9_-]{16,64}$/` -/
def isDevice (s : JsString) : Bool :=
  16 ≤ s.length && s.length ≤ 64 && s.all fun u => Links.isWord u || u == 0x5f || u == 0x2d

def isCodeUnit (u : UInt16) : Bool := unitIn 'A' 'Z' u || isDigit u

/-- `/^[A-Z0-9]{4}-[A-Z0-9]{4}$/` -/
def isCode (s : JsString) : Bool :=
  s.length == 9 && (s.take 4).all isCodeUnit && (s.drop 4).head? == some 0x2d && (s.drop 5).all isCodeUnit

/-- The answer to the start. -/
def started (a : LinkAgent) : Option (LinkReply NodeId) → LinkAgent
  | some ⟨200, .codes device code _ _, _⟩ =>
    if isDevice device && isCode code then { a with device := device, phase := .waiting } else { a with phase := .ended }
  | _ => { a with phase := .ended }

/-- The answer to a poll, or none; `late` when the time of the code was over by then. -/
def polled (a : LinkAgent) (r : Option (LinkReply NodeId)) (late : Bool) : LinkAgent :=
  match r with
  | some ⟨200, .result id, _⟩ => { a with phase := .linked id }
  | some ⟨202, _, _⟩ | some ⟨429, _, _⟩ | none => if late then { a with phase := .ended } else a
  | _ => { a with phase := .ended }

/-- `pair`: the test push is accepted, or the credentials are not saved. -/
def paired (a : LinkAgent) (id : NodeId) (accepted : Bool) : LinkAgent :=
  { a with phase := if accepted then .saved id else .ended }

/-- The agent was given the id. -/
def Has (a : LinkAgent) (id : NodeId) : Prop := a.phase = .linked id ∨ a.phase = .saved id

/-- The agent has asked, and is not over. -/
def Live (a : LinkAgent) : Prop := a.phase = .waiting ∨ ∃ id, a.Has id

end LinkAgent

/-- The hub, its clock when it was last read, and the agents.  `rotated` is a history variable: the nodes whose secret was
rotated. -/
structure Linking where
  links : Links NodeId
  store : NodeStore
  now : ℤ
  agents : List LinkAgent
  rotated : List NodeId

inductive LinkingOp
  /-- a run of `servitals-agent link` begins -/
  | run (secret : Secret) (host os agent ip : JsString)
  | ask (i : ℕ) (device : JsString) (codes : List UserCode) (trip : Trip)
  | poll (i : ℕ) (trip : Trip) (late : Bool)
  | pair (i : ℕ) (accepted : Bool)
  /-- another program calls the hub -/
  | otherAsk (ask : Links.Ask) (device : JsString) (codes : List UserCode)
  | otherPoll (device : Option JsString)
  | lookup (code : JsString) (w : Links.Who)
  | deny (code : JsString) (w : Links.Who)
  | approve (code : JsString) (w : Links.Who) (name : JsString) (tags : List JsString) (drawn : List NodeId)
    (written : Bool)
  | store (op : NodeStore.StoreOp)

/-- A step at a time of the hub's clock. -/
structure LinkingStep where
  time : ℤ
  op : LinkingOp

namespace Links

variable {ρ : Type*} {hash : JsString → JsString} {l : Links ρ}

/-! ### What the hub's calls tell -/

/-- The node ids that approvals returned, with what they were called with. -/
def made (log : List (LinkEvent ρ)) : List (ρ × Details) :=
  log.filterMap fun e => match e with
    | .called _ d (some res) => some (res, d)
    | _ => none

private theorem made_append (log log' : List (LinkEvent ρ)) : made (log ++ log') = made log ++ made log' :=
  List.filterMap_append

/-- The hashes of the device codes of all requests. -/
def hashes (l : Links ρ) : List JsString := l.requests.map LinkRequest.deviceHash

private theorem hashes_update (l : Links ρ) {p : ℕ} {r : LinkRequest ρ} (hr : l.requests[p]? = some r)
    (r' : LinkRequest ρ)
    (h : r'.deviceHash = r.deviceHash) : (l.update p r').hashes = l.hashes := by
  unfold hashes update
  rw [List.map_set]
  refine List.ext_getElem? fun i => ?_
  rw [List.getElem?_set]
  split
  · rename_i hi
    subst hi
    rw [List.getElem?_map, hr, h]
    split
    · rfl
    · rename_i hlen
      rw [List.length_map] at hlen
      exact absurd (List.getElem?_eq_some_iff.1 hr).1 hlen
  · rfl

private theorem hashes_sweep (l : Links ρ) (t : ℤ) : (l.sweep t).hashes = l.hashes := by
  rw [hashes, (sweep_swept l t).requests]
  rfl

/-- Nothing was added: the log grows by entries that are no call. -/
structure Quiet (l l' : Links ρ) : Prop where
  log : ∃ es, l'.log = l.log ++ es ∧ made es = []
  hashes : l'.hashes = l.hashes

private theorem quiet_refl (l : Links ρ) : Quiet l l := ⟨⟨[], (List.append_nil _).symm, rfl⟩, rfl⟩

private theorem quiet_sweep (l : Links ρ) (t : ℤ) : Quiet l (l.sweep t) :=
  ⟨⟨[], (sweep_swept l t).log.trans (List.append_nil _).symm, rfl⟩, hashes_sweep l t⟩

private theorem quiet_counted (l : Links ρ) (w : Who) (t : ℤ) : Quiet l ((l.sweep t).counted w t) :=
  ⟨⟨_, congrArg (· ++ _) (sweep_swept l t).log, rfl⟩, hashes_sweep l t⟩

variable (hash l) in
/-- A start answers with codes when it made a request with them. -/
private theorem start_spec (ask : Ask) (device : JsString) (codes : List UserCode) (t : ℤ) :
    (Quiet l (l.start hash ask device codes t).1 ∧
        ∀ d c e i ra, (l.start hash ask device codes t).2 ≠ some ⟨200, .codes d c e i, ra⟩) ∨
      ∃ details code, ask.details = some details ∧
        (l.start hash ask device codes t).1.log =
          l.log ++ [.started l.requests.length device code details (addressKey ask.ip) t] ∧
        (l.start hash ask device codes t).1.hashes = l.hashes ++ [hash device] ∧
        ∃ c e i ra, (l.start hash ask device codes t).2 = some ⟨200, .codes device c e i, ra⟩ := by
  unfold start
  split
  · exact Or.inl ⟨quiet_refl l, fun _ _ _ _ _ h => by cases h⟩
  · rename_i details hdetails
    dsimp only
    split
    · exact Or.inl ⟨quiet_sweep l t, fun _ _ _ _ _ h => by cases h⟩
    · split
      · exact Or.inl ⟨quiet_sweep l t, fun _ _ _ _ _ h => by cases h⟩
      · split
        · exact Or.inl ⟨quiet_sweep l t, fun _ _ _ _ _ h => by cases h⟩
        · rename_i code _
          refine Or.inr ⟨details, code, hdetails, ?_, ?_, _, _, _, _, rfl⟩
          · dsimp only
            rw [(sweep_swept l t).log, (sweep_swept l t).requests]
          · unfold hashes
            dsimp only
            rw [(sweep_swept l t).requests, List.map_append]
            rfl

variable (hash l) in
/-- A poll answers with a result when it hands out that of the device code's request. -/
private theorem poll_spec (device : Option JsString) (t : ℤ) :
    (Quiet l (l.poll hash device t).1 ∧ ∀ res ra, (l.poll hash device t).2 ≠ ⟨200, .result res, ra⟩) ∨
      ∃ d p r res, device = some d ∧ (l.sweep t).held hash d = some (p, r) ∧
        (l.poll hash device t).1.log = l.log ++ [.handed p d res] ∧ (l.poll hash device t).1.hashes = l.hashes ∧
        (l.poll hash device t).2 = ⟨200, .result res, none⟩ := by
  unfold poll
  split
  · exact Or.inl ⟨quiet_refl l, fun _ _ h => by cases h⟩
  · rename_i d hd
    obtain ⟨rfl, -⟩ := Option.filter_eq_some_iff.1 hd
    dsimp only
    split
    · exact Or.inl ⟨quiet_sweep l t, fun _ _ h => by cases h⟩
    · rename_i p r hheld
      have hr := (of_held hheld).2
      split
      · exact Or.inl ⟨quiet_sweep l t, fun _ _ h => by cases h⟩
      · exact Or.inl ⟨quiet_sweep l t, fun _ _ h => by cases h⟩
      · rename_i res _ _
        refine Or.inr ⟨d, p, r, res, rfl, hheld, ?_, ?_, rfl⟩
        · dsimp only
          rw [(sweep_swept l t).log]
        · exact (hashes_update (l.sweep t) hr (without r .spent) rfl).trans (hashes_sweep l t)
      · split
        · exact Or.inl ⟨quiet_sweep l t, fun _ _ h => by cases h⟩
        · have hhashes := (hashes_update (l.sweep t) hr { r with lastPoll := t } rfl).trans (hashes_sweep l t)
          refine Or.inl ⟨⟨⟨[], ?_, rfl⟩, hhashes⟩, fun _ _ h => ?_⟩
          · exact (sweep_swept l t).log.trans (List.append_nil _).symm
          · dsimp only at h
            split at h <;> cases h

private theorem Quiet.grows {l' : Links ρ} (h : Quiet l l') : ∃ es, l'.log = l.log ++ es := by
  obtain ⟨es, hes, -⟩ := h.log
  exact ⟨es, hes⟩

variable (hash l) in
private theorem start_log (ask : Ask) (device : JsString) (codes : List UserCode) (t : ℤ) :
    ∃ es, (l.start hash ask device codes t).1.log = l.log ++ es := by
  rcases start_spec hash l ask device codes t with ⟨hquiet, -⟩ | ⟨_, _, -, hlog, -⟩
  · exact hquiet.grows
  · exact ⟨_, hlog⟩

variable (hash l) in
private theorem poll_log (device : Option JsString) (t : ℤ) : ∃ es, (l.poll hash device t).1.log = l.log ++ es := by
  rcases poll_spec hash l device t with ⟨hquiet, -⟩ | ⟨_, _, _, _, -, -, hlog, -⟩
  · exact hquiet.grows
  · exact ⟨_, hlog⟩

variable (hash l) in
private theorem quiet_lookup (code : JsString) (w : Who) (t : ℤ) : Quiet l (l.lookup hash code w t).1 := by
  unfold lookup
  rcases find_effect hash l code w t with hf | ⟨-, hf⟩ | ⟨p, -, hf⟩
  · rw [hf]
    exact quiet_refl l
  · rw [hf]
    exact quiet_counted l w t
  · rw [hf]
    exact quiet_sweep l t

variable (hash l) in
private theorem quiet_deny (code : JsString) (w : Who) (onApprove : Details → Option ρ) (t : ℤ) :
    Quiet l (l.decide hash code false w onApprove t).1 := by
  unfold decide
  rcases find_effect hash l code w t with hf | ⟨-, hf⟩ | ⟨p, -, hf⟩
  · rw [hf]
    exact quiet_refl l
  · rw [hf]
    exact quiet_counted l w t
  · rw [hf]
    dsimp only
    split
    · exact quiet_sweep l t
    · rename_i r hr
      refine ⟨⟨[.decided p false t], ?_, rfl⟩, ?_⟩
      · exact congrArg (· ++ _) (sweep_swept l t).log
      · exact (hashes_update ((l.sweep t).taken p r false t) hr (without r .denied) rfl).trans (hashes_sweep l t)

variable (hash l) in
/-- An approval calls `onApprove` for the request of the code, or there is none. -/
private theorem approve_spec (code : JsString) (w : Who) (onApprove : Details → Option ρ) (t : ℤ) :
    (Quiet l (l.decide hash code true w onApprove t).1 ∧
        ∀ l' p r, l.find hash code w t = (l', .ok p) → l'.requests[p]? ≠ some r) ∨
      ∃ p r, l.find hash code w t = (l.sweep t, .ok p) ∧ (l.sweep t).requests[p]? = some r ∧
        (l.decide hash code true w onApprove t).1.hashes = l.hashes ∧
        (l.decide hash code true w onApprove t).1.log =
          l.log ++ [.decided p true t, .called p r.details (onApprove r.details)] := by
  unfold decide
  rcases find_effect hash l code w t with hf | ⟨-, hf⟩ | ⟨p, -, hf⟩
  · rw [hf]
    exact Or.inl ⟨quiet_refl l, fun _ _ _ h => by cases h⟩
  · rw [hf]
    exact Or.inl ⟨quiet_counted l w t, fun _ _ _ h => by cases h⟩
  · rw [hf]
    cases hr : (l.sweep t).requests[p]? with
    | none =>
      dsimp only
      rw [hr]
      refine Or.inl ⟨quiet_sweep l t, fun l' p' r h => ?_⟩
      cases h
      rw [hr]
      exact fun h => by cases h
    | some r =>
      refine Or.inr ⟨p, r, rfl, hr, ?_⟩
      dsimp only
      rw [hr]
      dsimp only
      rw [if_neg (by decide)]
      have hlog := (sweep_swept l t).log
      cases hres : onApprove r.details with
      | none =>
        refine ⟨hashes_sweep l t, ?_⟩
        dsimp only
        rw [hlog, List.append_assoc]
        rfl
      | some res =>
        refine ⟨(hashes_update ((l.sweep t).taken p r true t) hr { r with result := some res, status := .approved } rfl).trans
          (hashes_sweep l t), ?_⟩
        show ((l.sweep t).log ++ _) ++ _ = _
        rw [hlog, List.append_assoc]
        rfl

end Links

namespace Linking

/-- What `nodes.add` returns; it throws otherwise. -/
def added : Except JsString (Option NodeId) → Option NodeId
  | .ok id => id
  | .error _ => none

private theorem ok_of_added {r : Except JsString (Option NodeId)} {id : NodeId} (h : added r = some id) :
    r = .ok (some id) := by
  cases r with
  | error e => cases h
  | ok o => exact congrArg Except.ok h

/-- The nodes that a change of the store gives a new secret. -/
def rotates : NodeStore.StoreOp → List NodeId
  | .rotate id _ _ => [id]
  | _ => []

section

variable (hash : JsString → JsString)

/-- The approval of `linkRoute`: the name and the tags are checked first, then the request gets a node of its own. -/
def approve (s : Linking) (code : JsString) (w : Links.Who) (name : JsString) (tags : List JsString) (drawn : List NodeId)
    (written : Bool) (t : ℤ) : Linking :=
  match checkNode name tags with
  | .error _ => { s with links := (s.links.lookup hash code w t).1 }
  | .ok clean =>
    let add := fun (d : Details) => s.store.add clean tags d.secret drawn t written
    { s with
      links := (s.links.decide hash code true w (fun d => added (add d).2) t).1
      store := match s.links.find hash code w t with
        | (links, .ok p) => (links.requests[p]?).elim s.store fun r => (add r.details).1
        | (_, .error _) => s.store }

/-- A step, but for the clock. -/
def act (s : Linking) (t : ℤ) : LinkingOp → Linking
  | .run secret host os agent ip => { s with agents := s.agents ++ [⟨secret, host, os, agent, ip, [], .new⟩] }
  | .ask i device codes trip => match s.agents[i]? with
    | some a => match a.phase, trip with
      | .new, .lost => { s with agents := s.agents.set i (a.started none) }
      | .new, .unheard =>
        { s with links := (s.links.start hash a.ask device codes t).1, agents := s.agents.set i (a.started none) }
      | .new, .heard =>
        let r := s.links.start hash a.ask device codes t
        { s with links := r.1, agents := s.agents.set i (a.started r.2) }
      | _, _ => s
    | none => s
  | .poll i trip late => match s.agents[i]? with
    | some a => match a.phase, trip with
      | .waiting, .lost => { s with agents := s.agents.set i (a.polled none late) }
      | .waiting, .unheard =>
        { s with links := (s.links.poll hash (some a.device) t).1, agents := s.agents.set i (a.polled none late) }
      | .waiting, .heard =>
        let r := s.links.poll hash (some a.device) t
        { s with links := r.1, agents := s.agents.set i (a.polled (some r.2) late) }
      | _, _ => s
    | none => s
  | .pair i accepted => match s.agents[i]? with
    | some a => match a.phase with
      | .linked id => { s with agents := s.agents.set i (a.paired id accepted) }
      | _ => s
    | none => s
  | .otherAsk ask device codes => { s with links := (s.links.start hash ask device codes t).1 }
  | .otherPoll device => { s with links := (s.links.poll hash device t).1 }
  | .lookup code w => { s with links := (s.links.lookup hash code w t).1 }
  | .deny code w => { s with links := (s.links.decide hash code false w (fun _ => none) t).1 }
  | .approve code w name tags drawn written => s.approve hash code w name tags drawn written t
  | .store op => { s with store := s.store.call t op, rotated := rotates op ++ s.rotated }

def step (s : Linking) (x : LinkingStep) : Linking := { s.act hash x.time x.op with now := x.time }

/-- The codes drawn for a start: the device code differs, by its hash, from those of all requests, and both from those of
the requests that the hub remembers. -/
def fresh (s : Linking) (device : JsString) (codes : List UserCode) : Bool :=
  (s.links.requests.all fun r => r.deviceHash != hash device) &&
    s.links.byDevice.values.all fun p => (s.links.requests[p]?).all fun r =>
      r.deviceHash != hash device && codes.all fun code => r.userHash != hash code.1

/-- The clock does not go back, and drawn codes are fresh. -/
def Proper (s : Linking) (x : LinkingStep) : Bool :=
  decide (s.now ≤ x.time) && match x.op with
    | .ask _ device codes _ | .otherAsk _ device codes => s.fresh hash device codes
    | _ => true

end

/-- The hub of a new process, with the file of its nodes if there is one. -/
def start (file : Option (ℕ × OMap NodeId NodeRec)) (hostname : JsString) (id : NodeId) (secret : Secret) (t : ℤ) : Linking :=
  ⟨Links.init, ((NodeStore.fromFile (file.map fun f => (f.1, some f.2))).ensureLocal hostname id secret t true).1, t, [], []⟩

end Linking

/-! ### The records of the store -/

namespace NodeStore

variable {s : NodeStore}

private theorem find_save (s : NodeStore) (written : Bool) (id : NodeId) : (s.save written).find id = s.find id := by
  unfold save
  split <;> rfl

theorem Placed.save (h : s.Placed) (written : Bool) : (s.save written).Placed := by
  unfold NodeStore.save
  split
  · exact ⟨h.bound, h.inj⟩
  · exact h

/-- A change leaves every record as it is but the one it is for. -/
private theorem find_change (h : s.Synced) (hplaced : s.Placed) (id : NodeId)
    (fn : (n : NodeRec) → n.revoked = false → Except JsString NodeRec) (written : Bool) :
    (s.change id fn written).1.Placed ∧ ∀ id' n, s.find id' = some n →
      ∃ n', (s.change id fn written).1.find id' = some n' ∧ (n' = n ∨ id' = id ∧ ∃ hn, fn n hn = .ok n') := by
  have hsame : s.Placed ∧ ∀ id' n, s.find id' = some n →
      ∃ n', s.find id' = some n' ∧ (n' = n ∨ id' = id ∧ ∃ hn, fn n hn = .ok n') :=
    ⟨hplaced, fun id' n hn => ⟨n, hn, Or.inl rfl⟩⟩
  unfold change
  rw [load_of_synced h]
  dsimp only
  split
  · exact hsame
  · rename_i a ha
    split
    · exact hsame
    · rename_i m hm
      split
      · rename_i hnot
        split
        · exact hsame
        · rename_i m' hm'
          refine ⟨(hplaced.set a m').save written, fun id' n hn => ?_⟩
          rw [find_save, hplaced.find_set ha]
          by_cases hid : id' = id
          · have hfind : s.find id = some m := by rw [find, ha]; exact hm
            rw [hid, hfind] at hn
            obtain rfl := Option.some.inj hn
            exact ⟨m', if_pos hid, Or.inr ⟨hid, hnot, hm'⟩⟩
          · exact ⟨n, by rw [if_neg hid, hn], Or.inl rfl⟩
      · exact hsame

/-- An added node is new, and has the secret it was added with. -/
private theorem find_add (h : s.Synced) (hplaced : s.Placed) (name : JsString) (tags : List JsString)
    (secret : JsString)
    (drawn : List NodeId) (t : ℤ) (written : Bool) :
    (s.add name tags secret drawn t written).1.Placed ∧
      (∀ id n, s.find id = some n → (s.add name tags secret drawn t written).1.find id = some n) ∧
      ∀ id, (s.add name tags secret drawn t written).2 = .ok (some id) → s.find id = none ∧
        ∃ n, (s.add name tags secret drawn t written).1.find id = some n ∧ n.secret = secret := by
  unfold add
  dsimp only
  split
  · exact ⟨hplaced, fun _ _ hn => hn, fun _ he => by cases he⟩
  · rename_i clean _
    split
    · rename_i hhex
      rw [load_of_synced h]
      split
      · exact ⟨hplaced, fun _ _ hn => hn, fun _ he => by cases he⟩
      · split
        · exact ⟨hplaced, fun _ _ hn => hn, fun _ he => by cases he⟩
        · rename_i id hid
          have hnone : s.find id = none := by
            have hcontains := List.find?_some hid
            have hget : s.table.get? id = none := by simpa [OMap.contains] using hcontains
            rw [find, hget]
            rfl
          refine ⟨(hplaced.alloc id _).save written, fun id' n hn => ?_, fun id' he => ?_⟩
          · rw [find_save, hplaced.find_alloc]
            split
            · rename_i heq
              rw [heq, hnone] at hn
              cases hn
            · exact hn
          · cases written with
            | false => cases he
            | true =>
              obtain rfl := Option.some.inj (Except.ok.inj he)
              refine ⟨hnone, .fresh clean ⟨secret, hhex⟩ false t (some tags), ?_, rfl⟩
              rw [find_save, hplaced.find_alloc, if_pos rfl]
    · exact ⟨hplaced, fun _ _ hn => hn, fun _ he => by cases he⟩

/-- A call of the store keeps each node, and its secret unless the node is revoked or rotated. -/
private theorem find_call (h : s.Synced) (hplaced : s.Placed) (t : ℤ) (op : StoreOp) :
    (s.call t op).Placed ∧ ∀ id n, s.find id = some n → ∃ n', (s.call t op).find id = some n' ∧
      (n.revoked = true → n'.revoked = true) ∧
      (n'.revoked = true ∨ id ∈ Linking.rotates op ∨ n'.secret = n.secret) := by
  have hchange : ∀ id (fn : (n : NodeRec) → n.revoked = false → Except JsString NodeRec) written,
      (∀ n hn n', fn n hn = .ok n' → n'.revoked = true ∨ id ∈ Linking.rotates op ∨ n'.secret = n.secret) →
      (s.change id fn written).1.Placed ∧ ∀ id' n, s.find id' = some n → ∃ n', (s.change id fn written).1.find id' = some n' ∧
        (n.revoked = true → n'.revoked = true) ∧
        (n'.revoked = true ∨ id' ∈ Linking.rotates op ∨ n'.secret = n.secret) := by
    intro id fn written hfn
    obtain ⟨hp, hfind⟩ := find_change h hplaced id fn written
    refine ⟨hp, fun id' n hn => ?_⟩
    obtain ⟨n', hn', rfl | ⟨rfl, hnot, hok⟩⟩ := hfind id' n hn
    · exact ⟨n', hn', fun hr => hr, Or.inr (Or.inr rfl)⟩
    · refine ⟨n', hn', fun hrevoked => ?_, hfn n hnot n' hok⟩
      rw [hnot] at hrevoked
      cases hrevoked
  cases op with
  | add name tags secret drawn written =>
    obtain ⟨hp, hfind, -⟩ := find_add h hplaced name tags secret drawn t written
    exact ⟨hp, fun id n hn => ⟨n, hfind id n hn, fun hr => hr, Or.inr (Or.inr rfl)⟩⟩
  | rename id name written =>
    refine hchange id _ written fun n hn n' hok => Or.inr (Or.inr ?_)
    cases hname : checkName name with
    | error e =>
      rw [hname] at hok
      cases hok
    | ok clean =>
      rw [hname] at hok
      obtain rfl := Except.ok.inj hok
      rfl
  | setTags id tags written =>
    refine hchange id _ written fun n hn n' hok => Or.inr (Or.inr ?_)
    cases hname : checkNode n.name tags with
    | error e =>
      rw [hname] at hok
      cases hok
    | ok clean =>
      rw [hname] at hok
      obtain rfl := Except.ok.inj hok
      rfl
  | revoke id written =>
    refine hchange id _ written fun n hn n' hok => Or.inl ?_
    split at hok
    · cases hok
    · obtain rfl := Except.ok.inj hok
      rfl
  | rotate id secret written =>
    exact hchange id _ written fun n hn n' hok => Or.inr (Or.inl List.mem_cons_self)

private theorem placed_ensureLocal (file : Option (ℕ × OMap NodeId NodeRec)) (name : JsString) (id : NodeId)
    (secret : Secret)
    (t : ℤ) : ((fromFile (file.map fun f => (f.1, some f.2))).ensureLocal name id secret t true).1.Placed := by
  have hload : (fromFile (file.map fun f => (f.1, some f.2))).load.Placed := by
    cases file with
    | none => exact placed_empty _ _ _ _
    | some f =>
      obtain ⟨v, nodes⟩ := f
      exact ((placed_empty [] (some v) false (some (v, some nodes))).foldl_alloc nodes.nodup).1
  unfold ensureLocal
  dsimp only
  split
  · exact hload
  · split
    · exact hload
    · exact (hload.alloc id _).save true

end NodeStore

namespace Linking

variable {hash : JsString → JsString} {s : Linking}

/-! ### The invariant -/

/-- The hub: each approval added a node of its own, which is known by the secret of its request unless it was revoked or
rotated. -/
structure HubSound (hash : JsString → JsString) (now : ℤ) (links : Links NodeId) (store : NodeStore) (rotated : List NodeId) :
    Prop where
  kept : Links.Kept hash now links
  hashes : links.hashes.Nodup
  synced : store.Synced
  placed : store.Placed
  ids : ((Links.made links.log).map Prod.fst).Nodup
  known : ∀ e ∈ Links.made links.log, ∃ n, store.find e.1 = some n ∧
    (n.revoked = true ∨ e.1 ∈ rotated ∨ n.secret = e.2.secret)

/-- The agents: each that asked has a request of its own, and an id that was handed out for it. -/
structure AgentsSound (log : List (LinkEvent NodeId)) (agents : List LinkAgent) : Prop where
  request : ∀ (i : ℕ) a, agents[i]? = some a → a.Live → ∃ p code key t, .started p a.device code a.details key t ∈ log ∧
    ∀ id, a.Has id → .handed p a.device id ∈ log
  apart : ∀ (i j : ℕ) a b, agents[i]? = some a → agents[j]? = some b → a.Live → b.Live → a.device = b.device → i = j

structure Sound (hash : JsString → JsString) (s : Linking) : Prop where
  hub : HubSound hash s.now s.links s.store s.rotated
  agents : AgentsSound s.links.log s.agents

/-! ### The hub -/

/-- A call that adds nothing. -/
theorem HubSound.quiet {now t : ℤ} {links links' : Links NodeId} {store : NodeStore} {rotated : List NodeId}
    (h : HubSound hash now links store rotated) (hkept : Links.Kept hash t links') (hquiet : Links.Quiet links links') :
    HubSound hash t links' store rotated := by
  obtain ⟨es, hlog, hmade⟩ := hquiet.log
  have hsame : Links.made links'.log = Links.made links.log := by
    rw [hlog, Links.made_append, hmade, List.append_nil]
  refine ⟨hkept, ?_, h.synced, h.placed, ?_, ?_⟩
  · rw [hquiet.hashes]
    exact h.hashes
  · rw [hsame]
    exact h.ids
  · rw [hsame]
    exact h.known

theorem HubSound.later {now t : ℤ} {links : Links NodeId} {store : NodeStore} {rotated : List NodeId}
    (h : HubSound hash now links store rotated) (ht : now ≤ t) : HubSound hash t links store rotated :=
  h.quiet ⟨h.kept.told, h.kept.indexed.later ht⟩ (Links.quiet_refl links)

theorem HubSound.start {now t : ℤ} {links : Links NodeId} {store : NodeStore} {rotated : List NodeId}
    (h : HubSound hash now links store rotated) (ht : now ≤ t) (ask : Links.Ask) {device : JsString} {codes : List UserCode}
    (hdrawn : Links.drawn hash links ⟨t, .start ask device codes⟩ = true) (hnew : hash device ∉ links.hashes) :
    HubSound hash t (links.start hash ask device codes t).1 store rotated := by
  have hkept : Links.Kept hash t (links.start hash ask device codes t).1 :=
    h.kept.step (c := ⟨t, .start ask device codes⟩) ht hdrawn
  rcases Links.start_spec hash links ask device codes t with
    ⟨hquiet, -⟩ | ⟨details, code, -, hlog, hhashes, -⟩
  · exact h.quiet hkept hquiet
  · have hmade : Links.made (links.start hash ask device codes t).1.log = Links.made links.log := by
      rw [hlog, Links.made_append]
      exact List.append_nil _
    refine ⟨hkept, ?_, h.synced, h.placed, ?_, ?_⟩
    · rw [hhashes]
      refine List.nodup_append.2 ⟨h.hashes, List.nodup_singleton _, fun x hx y hy heq => ?_⟩
      rw [List.mem_singleton.1 hy] at heq
      exact hnew (heq ▸ hx)
    · rw [hmade]
      exact h.ids
    · rw [hmade]
      exact h.known

theorem HubSound.poll {now t : ℤ} {links : Links NodeId} {store : NodeStore} {rotated : List NodeId}
    (h : HubSound hash now links store rotated) (ht : now ≤ t) (device : Option JsString) :
    HubSound hash t (links.poll hash device t).1 store rotated := by
  have hkept : Links.Kept hash t (links.poll hash device t).1 := h.kept.step (c := ⟨t, .poll device⟩) ht rfl
  rcases Links.poll_spec hash links device t with ⟨hquiet, -⟩ | ⟨d, p, r, res, -, -, hlog, hhashes, -⟩
  · exact h.quiet hkept hquiet
  · exact h.quiet hkept ⟨⟨_, hlog, rfl⟩, hhashes⟩

theorem HubSound.lookup {now t : ℤ} {links : Links NodeId} {store : NodeStore} {rotated : List NodeId}
    (h : HubSound hash now links store rotated) (ht : now ≤ t) (code : JsString) (w : Links.Who) :
    HubSound hash t (links.lookup hash code w t).1 store rotated :=
  h.quiet (h.kept.step (c := ⟨t, .lookup code w⟩) ht rfl) (Links.quiet_lookup hash links code w t)

private theorem HubSound.deny {now t : ℤ} {links : Links NodeId} {store : NodeStore} {rotated : List NodeId}
    (h : HubSound hash now links store rotated) (ht : now ≤ t) (code : JsString) (w : Links.Who) :
    HubSound hash t (links.decide hash code false w (fun _ => none) t).1 store rotated :=
  h.quiet (h.kept.step (c := ⟨t, .decide code false w fun _ => none⟩) ht rfl) (Links.quiet_deny hash links code w _ t)

/-- The store changes otherwise. -/
theorem HubSound.store {now t : ℤ} {links : Links NodeId} {store : NodeStore} {rotated : List NodeId}
    (h : HubSound hash now links store rotated) (ht : now ≤ t) (op : NodeStore.StoreOp) :
    HubSound hash t links (store.call t op) (rotates op ++ rotated) := by
  obtain ⟨hplaced, hfind⟩ := NodeStore.find_call h.synced h.placed t op
  refine ⟨⟨h.kept.told, h.kept.indexed.later ht⟩, h.hashes, (NodeStore.keeps_call h.synced t op).synced, hplaced, h.ids,
    fun e he => ?_⟩
  obtain ⟨n, hn, hwhy⟩ := h.known e he
  obtain ⟨n', hn', hrevoked, hsecret⟩ := hfind e.1 n hn
  refine ⟨n', hn', ?_⟩
  rcases hsecret with hr | hr | hsame
  · exact Or.inl hr
  · exact Or.inr (Or.inl (List.mem_append_left _ hr))
  · rcases hwhy with hr | hr | hr
    · exact Or.inl (hrevoked hr)
    · exact Or.inr (Or.inl (List.mem_append_right _ hr))
    · exact Or.inr (Or.inr (hsame.trans hr))

/-- An approval gives its request a node of its own. -/
theorem HubSound.approve {t : ℤ} (h : HubSound hash s.now s.links s.store s.rotated) (ht : s.now ≤ t) (code : JsString)
    (w : Links.Who) (name : JsString) (tags : List JsString) (drawn : List NodeId) (written : Bool) :
    HubSound hash t (s.approve hash code w name tags drawn written t).links
        (s.approve hash code w name tags drawn written t).store s.rotated ∧
      ∃ es, (s.approve hash code w name tags drawn written t).links.log = s.links.log ++ es := by
  unfold Linking.approve
  split
  · obtain ⟨⟨es, hlog, -⟩, -⟩ := Links.quiet_lookup hash s.links code w t
    exact ⟨h.lookup ht code w, es, hlog⟩
  · rename_i clean _
    dsimp only
    set onApprove := fun d : Details => added (s.store.add clean tags d.secret drawn t written).2
    have hkept : Links.Kept hash t (s.links.decide hash code true w onApprove t).1 :=
      h.kept.step (c := ⟨t, .decide code true w onApprove⟩) ht rfl
    rcases Links.approve_spec hash s.links code w onApprove t with
      ⟨hquiet, hno⟩ | ⟨p, r, hfind, hr, hhashes, hlog⟩
    · -- no request has the code: the store stays
      have hsame : (match s.links.find hash code w t with
          | (links, .ok p) => (links.requests[p]?).elim s.store fun r => (s.store.add clean tags r.details.secret drawn t written).1
          | (_, .error _) => s.store) = s.store := by
        split
        · rename_i links p hfind
          cases hget : links.requests[p]? with
          | none => rfl
          | some r => exact absurd hget (hno links p r hfind)
        · rfl
      rw [hsame]
      obtain ⟨es, hes, -⟩ := hquiet.log
      exact ⟨h.quiet hkept hquiet, es, hes⟩
    · rw [hfind]
      dsimp only
      rw [hr, Option.elim_some]
      obtain ⟨hplaced, hold, hnew⟩ := NodeStore.find_add h.synced h.placed clean tags r.details.secret drawn t written
      have hsynced : (s.store.add clean tags r.details.secret drawn t written).1.Synced :=
        (NodeStore.keeps_call h.synced t (.add clean tags r.details.secret drawn written)).synced
      have hknown : ∀ e ∈ Links.made s.links.log, ∃ n,
          (s.store.add clean tags r.details.secret drawn t written).1.find e.1 = some n ∧
            (n.revoked = true ∨ e.1 ∈ s.rotated ∨ n.secret = e.2.secret) := by
        intro e he
        obtain ⟨n, hn, hwhy⟩ := h.known e he
        exact ⟨n, hold e.1 n hn, hwhy⟩
      refine ⟨⟨hkept, by rw [hhashes]; exact h.hashes, hsynced, hplaced, ?_, ?_⟩, _, hlog⟩
      · rw [hlog, Links.made_append]
        cases hres : onApprove r.details with
        | none =>
          have hnone : Links.made [.decided p true t, .called p r.details (none : Option NodeId)] = [] := rfl
          rw [hnone, List.append_nil]
          exact h.ids
        | some id =>
          have hone : Links.made [.decided p true t, .called p r.details (some id)] = [(id, r.details)] := rfl
          rw [hone, List.map_append]
          refine List.nodup_append.2 ⟨h.ids, List.nodup_singleton _, fun x hx y hy heq => ?_⟩
          -- an id that was returned before is taken
          rw [List.map_singleton, List.mem_singleton] at hy
          obtain ⟨e, he, rfl⟩ := List.mem_map.1 hx
          obtain ⟨n, hn, -⟩ := h.known e he
          have hfree := (hnew id (ok_of_added hres)).1
          have hid : id = e.1 := (heq.trans hy).symm
          rw [hid, hn] at hfree
          cases hfree
      · rw [hlog, Links.made_append]
        intro e he
        rcases List.mem_append.1 he with he | he
        · exact hknown e he
        · cases hres : onApprove r.details with
          | none =>
            rw [hres] at he
            exact absurd he List.not_mem_nil
          | some id =>
            rw [hres] at he
            obtain rfl : e = (id, r.details) := List.mem_singleton.1 he
            obtain ⟨-, n, hn, hsecret⟩ := hnew id (ok_of_added hres)
            exact ⟨n, hn, Or.inr (Or.inr hsecret)⟩

/-! ### The agents -/

private theorem not_live_new {a : LinkAgent} (h : a.phase = .new) : ¬ a.Live := by
  rintro (hw | ⟨id, hid | hid⟩) <;> rw [h] at * <;> cases ‹_›

private theorem not_live_ended {a : LinkAgent} (h : a.phase = .ended) : ¬ a.Live := by
  rintro (hw | ⟨id, hid | hid⟩) <;> rw [h] at * <;> cases ‹_›

/-- An agent that goes on after its start has the device code of the answer. -/
private theorem started_cases (a : LinkAgent) (r : Option (LinkReply NodeId)) :
    ¬ (a.started r).Live ∨ ∃ device c e i ra, r = some ⟨200, .codes device c e i, ra⟩ ∧
      a.started r = { a with device := device, phase := .waiting } := by
  unfold LinkAgent.started
  split
  · rename_i device code e i ra
    split
    · exact Or.inr ⟨device, code, e, i, ra, rfl, rfl⟩
    · exact Or.inl (not_live_ended rfl)
  · exact Or.inl (not_live_ended rfl)

/-- After a poll, an agent is as it was, over, or has the id of the answer. -/
private theorem polled_cases (a : LinkAgent) (r : Option (LinkReply NodeId)) (late : Bool) :
    a.polled r late = a ∨ ¬ (a.polled r late).Live ∨
      ∃ id ra, r = some ⟨200, .result id, ra⟩ ∧ a.polled r late = { a with phase := .linked id } := by
  unfold LinkAgent.polled
  split
  · rename_i id ra
    exact Or.inr (Or.inr ⟨id, ra, rfl, rfl⟩)
  all_goals first
    | exact Or.inr (Or.inl (not_live_ended rfl))
    | (split
       · exact Or.inr (Or.inl (not_live_ended rfl))
       · exact Or.inl rfl)

theorem AgentsSound.grow {log : List (LinkEvent NodeId)} {agents : List LinkAgent} (h : AgentsSound log agents)
    (es : List (LinkEvent NodeId)) : AgentsSound (log ++ es) agents := by
  refine ⟨fun i a ha hlive => ?_, h.apart⟩
  obtain ⟨p, code, key, t, hs, hh⟩ := h.request i a ha hlive
  exact ⟨p, code, key, t, List.mem_append_left _ hs, fun id hid => List.mem_append_left _ (hh id hid)⟩

/-- An agent changes. -/
theorem AgentsSound.set {log : List (LinkEvent NodeId)} {agents : List LinkAgent} (h : AgentsSound log agents) {i : ℕ}
    {a' : LinkAgent}
    (hrequest : a'.Live → ∃ p code key t, .started p a'.device code a'.details key t ∈ log ∧
      ∀ id, a'.Has id → .handed p a'.device id ∈ log)
    (hapart : a'.Live → ∀ (j : ℕ) b, j ≠ i → agents[j]? = some b → b.Live → b.device ≠ a'.device) :
    AgentsSound log (agents.set i a') := by
  have hget : ∀ (j : ℕ) b, (agents.set i a')[j]? = some b → j = i ∧ b = a' ∨ j ≠ i ∧ agents[j]? = some b := by
    intro j b hb
    by_cases hj : j = i
    · subst hj
      rw [List.getElem?_set_self'] at hb
      obtain ⟨-, -, rfl⟩ := Option.map_eq_some_iff.1 hb
      exact Or.inl ⟨rfl, rfl⟩
    · rw [List.getElem?_set_ne (Ne.symm hj)] at hb
      exact Or.inr ⟨hj, hb⟩
  constructor
  · intro j b hb hlive
    rcases hget j b hb with ⟨-, rfl⟩ | ⟨-, hb⟩
    · exact hrequest hlive
    · exact h.request j b hb hlive
  · intro j k b c hb hc hliveb hlivec hdevice
    rcases hget j b hb with ⟨rfl, rfl⟩ | ⟨hj, hb⟩
    · rcases hget k c hc with ⟨rfl, -⟩ | ⟨hk, hc⟩
      · rfl
      · exact absurd hdevice.symm (hapart hliveb k c hk hc hlivec)
    · rcases hget k c hc with ⟨-, hca⟩ | ⟨-, hc⟩
      · rw [hca] at hdevice hlivec
        exact absurd hdevice (hapart hlivec j b hj hb hliveb)
      · exact h.apart j k b c hb hc hliveb hlivec hdevice

/-- An agent that is over. -/
theorem AgentsSound.over {log : List (LinkEvent NodeId)} {agents : List LinkAgent} (h : AgentsSound log agents) {i : ℕ}
    {a' : LinkAgent} (hnot : ¬ a'.Live) : AgentsSound log (agents.set i a') :=
  h.set (fun hlive => absurd hlive hnot) fun hlive => absurd hlive hnot

/-- An agent that goes on with its device code. -/
theorem AgentsSound.next {log : List (LinkEvent NodeId)} {agents : List LinkAgent} (h : AgentsSound log agents) {i : ℕ}
    {a a' : LinkAgent} (ha : agents[i]? = some a) (hlive : a.Live) (hdevice : a'.device = a.device)
    (hdetails : a'.details = a.details)
    (hhas : ∀ p code key t, .started p a.device code a.details key t ∈ log → (∀ id, a.Has id → .handed p a.device id ∈ log) →
      ∀ id, a'.Has id → .handed p a.device id ∈ log) :
    AgentsSound log (agents.set i a') := by
  obtain ⟨p, code, key, t, hs, hhanded⟩ := h.request i a ha hlive
  refine h.set (fun _ => ⟨p, code, key, t, ?_, ?_⟩) fun _ j b hj hb hliveb hsame => ?_
  · rw [hdevice, hdetails]
    exact hs
  · rw [hdevice]
    exact hhas p code key t hs hhanded
  · rw [hdevice] at hsame
    exact hj (h.apart j i b a hb ha hliveb hlive hsame)

/-- The request of a device code is where the log says. -/
theorem HubSound.place {now : ℤ} {links : Links NodeId} {store : NodeStore} {rotated : List NodeId}
    (h : HubSound hash now links store rotated) {p q : ℕ} {device : JsString} {code : UserCode} {d : Details} {key : JsString}
    {t : ℤ} (hstarted : .started p device code d key t ∈ links.log) {r : LinkRequest NodeId} (hr : links.requests[q]? = some r)
    (hhash : r.deviceHash = hash device) : q = p := by
  obtain ⟨r', hr', hbegun⟩ := h.kept.told.begun hstarted
  have hp : links.hashes[p]? = some (hash device) := by
    rw [Links.hashes, List.getElem?_map, hr', ← hbegun.device]
    rfl
  have hq : links.hashes[q]? = some (hash device) := by
    rw [Links.hashes, List.getElem?_map, hr, ← hhash]
    rfl
  obtain ⟨hlen, -⟩ := List.getElem?_eq_some_iff.1 hq
  exact (List.getElem?_inj hlen h.hashes).1 (hq.trans hp.symm)

theorem AgentsSound.push {log : List (LinkEvent NodeId)} {agents : List LinkAgent} (h : AgentsSound log agents)
    {a' : LinkAgent} (hnot : ¬ a'.Live) : AgentsSound log (agents ++ [a']) := by
  have hget : ∀ (j : ℕ) b, (agents ++ [a'])[j]? = some b → b.Live → agents[j]? = some b := by
    intro j b hb hlive
    rw [List.getElem?_append] at hb
    split at hb
    · exact hb
    · obtain rfl := List.mem_singleton.1 (List.mem_of_getElem? hb)
      exact absurd hlive hnot
  exact ⟨fun i a ha hlive => h.request i a (hget i a ha hlive) hlive, fun i j a b ha hb hlivea hliveb hdevice =>
    h.apart i j a b (hget i a ha hlivea) (hget j b hb hliveb) hlivea hliveb hdevice⟩

/-! ### The steps -/

private theorem of_fresh {device : JsString} {codes : List UserCode} (h : s.fresh hash device codes = true)
    (ask : Links.Ask) (t : ℤ) :
    hash device ∉ s.links.hashes ∧ Links.drawn hash s.links ⟨t, .start ask device codes⟩ = true := by
  unfold fresh at h
  rw [Bool.and_eq_true] at h
  refine ⟨fun hmem => ?_, h.2⟩
  obtain ⟨r, hr, hhash⟩ := List.mem_map.1 hmem
  have hne := List.all_eq_true.1 h.1 r hr
  rw [hhash] at hne
  simp at hne

private theorem details_of_ask {a : LinkAgent} {d : Details} (h : a.ask.details = some d) : d = a.details := by
  unfold Links.Ask.details at h
  simp only [LinkAgent.ask, Option.bind_eq_bind, Option.bind_eq_some_iff, Option.filter_eq_some_iff, Option.some.injEq] at h
  obtain ⟨_, ⟨rfl, -⟩, _, ⟨rfl, -⟩, _, ⟨rfl, -⟩, _, ⟨rfl, -⟩, he⟩ := h
  exact (Option.some.inj he).symm

private theorem not_has_waiting {a : LinkAgent} (h : a.phase = .waiting) (id : NodeId) : ¬ a.Has id := by
  rintro (hid | hid) <;> rw [h] at hid <;> cases hid

/-- An agent's start. -/
theorem Sound.ask (h : Sound hash s) {t : ℤ} (ht : s.now ≤ t) {i : ℕ} {device : JsString} {codes : List UserCode}
    (hfresh : s.fresh hash device codes = true) (trip : Trip) :
    Sound hash { s.act hash t (.ask i device codes trip) with now := t } := by
  have hsame : Sound hash { s with now := t } := ⟨h.hub.later ht, h.agents⟩
  unfold act
  dsimp only
  split
  · rename_i a ha
    obtain ⟨hnew, hdrawn⟩ := of_fresh hfresh a.ask t
    have hhub := h.hub.start ht a.ask hdrawn hnew
    obtain ⟨es, hlog⟩ := Links.start_log hash s.links a.ask device codes t
    split
    · exact ⟨h.hub.later ht, h.agents.over (not_live_ended rfl)⟩
    · refine ⟨hhub, ?_⟩
      dsimp only
      rw [hlog]
      exact (h.agents.grow es).over (not_live_ended rfl)
    · refine ⟨hhub, ?_⟩
      dsimp only
      rcases started_cases a (s.links.start hash a.ask device codes t).2 with hnot | ⟨device', c, e, i', ra, hr, hstarted⟩
      · rw [hlog]
        exact (h.agents.grow es).over hnot
      · rcases Links.start_spec hash s.links a.ask device codes t with
          ⟨-, hno⟩ | ⟨details, code, hdetails, hlog', -, c', e', i'', ra', hr'⟩
        · exact absurd hr (hno device' c e i' ra)
        · -- the answer has the codes of the new request
          obtain rfl : device = device' := by
            rw [hr] at hr'
            injection hr' with hr'
            injection hr' with _ hbody
            injection hbody with hdevice
            exact hdevice.symm
          obtain rfl := details_of_ask hdetails
          rw [hstarted, hlog']
          refine (h.agents.grow _).set (fun _ => ⟨_, code, _, t, List.mem_append_right _ List.mem_cons_self, fun id hid => ?_⟩)
            fun _ j b _ hb hlive hdevice => ?_
          · exact absurd hid (not_has_waiting rfl id)
          · -- the device code of another agent is that of a request before
            obtain ⟨p, code', key, t', hs, -⟩ := h.agents.request j b hb hlive
            obtain ⟨r, hr, hbegun⟩ := h.hub.kept.told.begun hs
            refine hnew (List.mem_map.2 ⟨r, List.mem_of_getElem? hr, ?_⟩)
            rw [hbegun.device]
            exact congrArg hash hdevice
    · exact hsame
  · exact hsame

/-- An agent's poll. -/
theorem Sound.poll (h : Sound hash s) {t : ℤ} (ht : s.now ≤ t) (i : ℕ) (trip : Trip) (late : Bool) :
    Sound hash { s.act hash t (.poll i trip late) with now := t } := by
  have hsame : Sound hash { s with now := t } := ⟨h.hub.later ht, h.agents⟩
  unfold act
  dsimp only
  split
  · rename_i a ha
    have hhub := h.hub.poll ht (some a.device)
    obtain ⟨es, hlog⟩ := Links.poll_log hash s.links (some a.device) t
    have hlost : ∀ log, AgentsSound log s.agents → a.phase = .waiting →
        AgentsSound log (s.agents.set i (a.polled none late)) := by
      intro log hagents hphase
      rcases polled_cases a none late with hkeep | hnot | ⟨id, ra, hr, -⟩
      · rw [hkeep]
        exact hagents.next ha (Or.inl hphase) rfl rfl fun _ _ _ _ _ hhas => hhas
      · exact hagents.over hnot
      · cases hr
    split
    · rename_i hphase
      exact ⟨h.hub.later ht, hlost _ h.agents hphase⟩
    · rename_i hphase
      refine ⟨hhub, ?_⟩
      dsimp only
      rw [hlog]
      exact hlost _ (h.agents.grow es) hphase
    · rename_i hphase
      refine ⟨hhub, ?_⟩
      dsimp only
      rcases polled_cases a (some (s.links.poll hash (some a.device) t).2) late with hkeep | hnot | ⟨id, ra, hr, hlinked⟩
      · rw [hkeep, hlog]
        exact (h.agents.grow es).next ha (Or.inl hphase) rfl rfl fun _ _ _ _ _ hhas => hhas
      · rw [hlog]
        exact (h.agents.grow es).over hnot
      · rcases Links.poll_spec hash s.links (some a.device) t with
          ⟨-, hno⟩ | ⟨d, p, r, res, hd, hheld, hlog', -, hr'⟩
        · exact absurd (Option.some.inj hr) (hno id ra)
        · obtain rfl := Option.some.inj hd
          obtain rfl : res = id := by
            rw [hr'] at hr
            injection hr with hr
            injection hr with _ hbody
            injection hbody
          obtain ⟨hp, hget⟩ := Links.of_held hheld
          have hhash : r.deviceHash = hash a.device := by
            obtain ⟨r', hr', hdevice⟩ := (h.hub.kept.sweep ht).indexed.device _ _ hp
            obtain rfl := Option.some.inj (hget.symm.trans hr')
            exact hdevice
          rw [(Links.sweep_swept s.links t).requests] at hget
          rw [hlinked, hlog']
          refine (h.agents.grow _).next ha (Or.inl hphase) rfl rfl fun p' code key t' hs _ id hid => ?_
          -- what was handed out is for the request of the agent
          have hs' : .started p' a.device code a.details key t' ∈ s.links.log := by
            rcases List.mem_append.1 hs with hs | hs
            · exact hs
            · cases List.mem_singleton.1 hs
          obtain rfl := h.hub.place hs' hget hhash
          obtain rfl : res = id := by
            rcases hid with hid | hid
            · injection hid
            · cases hid
          exact List.mem_append_right _ List.mem_cons_self
    · exact hsame
  · exact hsame

/-- The test push of an agent. -/
theorem Sound.pair (h : Sound hash s) {t : ℤ} (ht : s.now ≤ t) (i : ℕ) (accepted : Bool) :
    Sound hash { s.act hash t (.pair i accepted) with now := t } := by
  have hsame : Sound hash { s with now := t } := ⟨h.hub.later ht, h.agents⟩
  unfold act
  dsimp only
  split
  · rename_i a ha
    split
    · rename_i id hphase
      have hhas : a.Has id := Or.inl hphase
      refine ⟨h.hub.later ht, ?_⟩
      cases accepted with
      | false => exact h.agents.over (not_live_ended rfl)
      | true =>
        refine h.agents.next ha (Or.inr ⟨id, hhas⟩) rfl rfl fun p code key t hs hhanded id' hid => hhanded id' ?_
        rcases hid with hid | hid
        · cases hid
        · obtain rfl : id = id' := by injection hid
          exact hhas
    · exact hsame
  · exact hsame

/-- Calls of other programs and of the person. -/
private theorem Sound.hubOnly (h : Sound hash s) {links : Links NodeId} {store : NodeStore} {rotated : List NodeId}
    {t : ℤ}
    (hhub : HubSound hash t links store rotated) (hlog : ∃ es, links.log = s.links.log ++ es) :
    Sound hash ⟨links, store, t, s.agents, rotated⟩ := by
  obtain ⟨es, hlog⟩ := hlog
  refine ⟨hhub, ?_⟩
  show AgentsSound links.log s.agents
  rw [hlog]
  exact h.agents.grow es

theorem Sound.step (h : Sound hash s) {x : LinkingStep} (hx : s.Proper hash x = true) : Sound hash (s.step hash x) := by
  obtain ⟨t, op⟩ := x
  unfold Proper at hx
  rw [Bool.and_eq_true, decide_eq_true_eq] at hx
  obtain ⟨ht, hop⟩ := hx
  cases op with
  | run secret host os agent ip => exact ⟨h.hub.later ht, h.agents.push (not_live_new rfl)⟩
  | ask i device codes trip => exact h.ask ht hop trip
  | poll i trip late => exact h.poll ht i trip late
  | pair i accepted => exact h.pair ht i accepted
  | otherAsk ask device codes =>
    obtain ⟨hnew, hdrawn⟩ := of_fresh hop ask t
    exact h.hubOnly (h.hub.start ht ask hdrawn hnew) (Links.start_log hash s.links ask device codes t)
  | otherPoll device => exact h.hubOnly (h.hub.poll ht device) (Links.poll_log hash s.links device t)
  | lookup code w => exact h.hubOnly (h.hub.lookup ht code w) (Links.quiet_lookup hash s.links code w t).grows
  | deny code w => exact h.hubOnly (h.hub.deny ht code w) (Links.quiet_deny hash s.links code w _ t).grows
  | approve code w name tags drawn written =>
    obtain ⟨hhub, hlog⟩ := h.hub.approve ht code w name tags drawn written
    have hagents : (s.approve hash code w name tags drawn written t).agents = s.agents ∧
        (s.approve hash code w name tags drawn written t).rotated = s.rotated := by
      unfold Linking.approve
      split <;> exact ⟨rfl, rfl⟩
    have hsound := h.hubOnly hhub hlog
    rw [← hagents.1, ← hagents.2] at hsound
    exact hsound
  | store op => exact h.hubOnly (h.hub.store ht op) ⟨[], (List.append_nil _).symm⟩

theorem sound_start (hash : JsString → JsString) (file : Option (ℕ × OMap NodeId NodeRec)) (hostname : JsString) (id : NodeId)
    (secret : Secret) (t : ℤ) : Sound hash (start file hostname id secret t) := by
  refine ⟨⟨⟨Links.told_nil hash, Links.indexed_nil t⟩, List.nodup_nil, NodeStore.synced_ensureLocal file hostname id secret t,
    NodeStore.placed_ensureLocal file hostname id secret t, List.nodup_nil, fun _ he => absurd he List.not_mem_nil⟩, ?_, ?_⟩
  · intro i a ha
    cases ha
  · intro i j a b ha
    cases ha

/-- What the log tells of a request whose result was handed out. -/
private theorem told_handed {p : ℕ} {r : LinkRequest NodeId} {l : List (LinkEvent NodeId)} (h : Links.Tale hash p r l)
    {device device' : JsString} {code : UserCode} {d : Details} {key : JsString} {t₀ : ℤ} {id : NodeId}
    (hstarted : .started p device code d key t₀ ∈ l) (hhanded : .handed p device' id ∈ l) :
    (∀ q device'' id', .handed q device'' id' ∈ l → device'' = device') ∧ (∀ t, .decided p false t ∉ l) ∧
      .called p d (some id) ∈ l ∧ ∃ t₁, .decided p true t₁ ∈ l ∧ t₁ ≤ t₀ + Links.TTL_MS := by
  cases h with
  | waiting => simp at hhanded
  | denied => simp at hhanded
  | threw => simp at hhanded
  | approved => simp at hhanded
  | spent hbegun ht hstatus hdevice =>
    simp only [List.mem_cons, LinkEvent.started.injEq, List.not_mem_nil, or_false, reduceCtorEq] at hstarted
    obtain ⟨-, rfl, rfl, rfl, rfl, rfl⟩ := hstarted
    simp only [List.mem_cons, LinkEvent.handed.injEq, List.not_mem_nil, or_false, false_or, reduceCtorEq] at hhanded
    obtain ⟨-, rfl, rfl⟩ := hhanded
    refine ⟨fun q device'' id' hm => ?_, by simp, by simp, _, by simp, ht⟩
    simp only [List.mem_cons, LinkEvent.handed.injEq, List.not_mem_nil, or_false, false_or, reduceCtorEq] at hm
    exact hm.2.1

/-- Approvals that returned one id are one approval. -/
private theorem called_unique {log : List (LinkEvent NodeId)} (h : ((Links.made log).map Prod.fst).Nodup) {p q : ℕ}
    {d e : Details}
    {id : NodeId} (hp : .called p d (some id) ∈ log) (hq : .called q e (some id) ∈ log) : p = q := by
  have hmem : ∀ {l : List (LinkEvent NodeId)} {p d}, .called p d (some id) ∈ l → id ∈ (Links.made l).map Prod.fst :=
    fun hm => List.mem_map.2 ⟨_, List.mem_filterMap.2 ⟨_, hm, rfl⟩, rfl⟩
  induction log with
  | nil => exact absurd hp List.not_mem_nil
  | cons x log ih =>
    rw [show x :: log = [x] ++ log from rfl, Links.made_append, List.map_append, List.nodup_append] at h
    obtain ⟨-, hlog, happart⟩ := h
    rcases List.mem_cons.1 hp with hpx | hp
    · rcases List.mem_cons.1 hq with hqx | hq
      · exact (LinkEvent.called.inj (hpx.trans hqx.symm)).1
      · exact absurd rfl (happart id (hmem (List.mem_singleton.2 hpx)) id (hmem hq))
    · rcases List.mem_cons.1 hq with hqx | hq
      · exact absurd rfl (happart id (hmem (List.mem_singleton.2 hqx)) id (hmem hp))
      · exact ih hlog hp hq

/-- What is known of an agent that has an id. -/
theorem Sound.has (h : Sound hash s) {i : ℕ} {a : LinkAgent} {id : NodeId} (ha : s.agents[i]? = some a) (hid : a.Has id) :
    ∃ p code key t₀ t₁, .started p a.device code a.details key t₀ ∈ s.links.log ∧ .decided p true t₁ ∈ s.links.log ∧
      t₁ ≤ t₀ + Links.TTL_MS ∧ (∀ t, .decided p false t ∉ s.links.log) ∧ .called p a.details (some id) ∈ s.links.log ∧
      ∀ device' id', .handed p device' id' ∈ s.links.log → device' = a.device := by
  obtain ⟨p, code, key, t₀, hs, hhanded⟩ := h.agents.request i a ha (Or.inr ⟨id, hid⟩)
  obtain ⟨r, hr, -⟩ := h.hub.kept.told.begun hs
  obtain ⟨hone, hno, hcalled, t₁, hdecided, ht⟩ := told_handed (h.hub.kept.told.tale hr) ((Links.mem_about rfl).2 hs)
    ((Links.mem_about rfl).2 (hhanded id hid))
  exact ⟨p, code, key, t₀, t₁, hs, (Links.mem_about rfl).1 hdecided, ht, fun t hm => hno t ((Links.mem_about rfl).2 hm),
    (Links.mem_about rfl).1 hcalled, fun device' id' hm => hone p device' id' ((Links.mem_about rfl).2 hm)⟩

/-- In every run of a hub with any number of linking servers, over a network that loses requests and answers, and with other
programs calling the hub: an agent that has an id was approved, by the code it was given, before that expired, and not
denied; the approval added the node with the agent's own secret, and the hub knows the node by it unless the node was
revoked or rotated since; and no two agents have one id. -/
theorem linked_soundly {file : Option (ℕ × OMap NodeId NodeRec)} {hostname : JsString} {drawn : NodeId} {secret : Secret}
    {t : ℤ} {steps : List LinkingStep}
    (h : Runs.Meets (step hash) (fun s x => s.Proper hash x = true) (start file hostname drawn secret t) steps) :
    let s := Runs.run (step hash) (start file hostname drawn secret t) steps
    (∀ (i : ℕ) a id, s.agents[i]? = some a → a.Has id →
      (∃ p code key t₀ t₁, .started p a.device code a.details key t₀ ∈ s.links.log ∧ .decided p true t₁ ∈ s.links.log ∧
        t₁ ≤ t₀ + Links.TTL_MS ∧ (∀ t, .decided p false t ∉ s.links.log) ∧ .called p a.details (some id) ∈ s.links.log) ∧
      ∃ n, s.store.find id = some n ∧ (n.revoked = true ∨ id ∈ s.rotated ∨ n.secret = a.secret.1)) ∧
    ∀ (i j : ℕ) a b id, s.agents[i]? = some a → s.agents[j]? = some b → a.Has id → b.Has id → i = j := by
  intro s
  have hs : Sound hash s := h.invariant (fun _ _ hi hx => hi.step hx) (sound_start hash file hostname drawn secret t)
  refine ⟨fun i a id ha hid => ?_, fun i j a b id ha hb hida hidb => ?_⟩
  · obtain ⟨p, code, key, t₀, t₁, hstarted, hdecided, ht, hno, hcalled, -⟩ := hs.has ha hid
    exact ⟨⟨p, code, key, t₀, t₁, hstarted, hdecided, ht, hno, hcalled⟩,
      hs.hub.known (id, a.details) (List.mem_filterMap.2 ⟨_, hcalled, rfl⟩)⟩
  · obtain ⟨p, _, _, _, _, -, -, -, -, hcalled, hone⟩ := hs.has ha hida
    obtain ⟨q, _, _, _, _, hq, -, -, -, hcalled', -⟩ := hs.has hb hidb
    obtain rfl := called_unique hs.hub.ids hcalled hcalled'
    -- one request has one holder
    obtain ⟨q, _, _, _, hq', hhanded⟩ := hs.agents.request j b hb (Or.inr ⟨id, hidb⟩)
    obtain ⟨r, hr, hbegun⟩ := hs.hub.kept.told.begun hq
    obtain ⟨r', hr', hbegun'⟩ := hs.hub.kept.told.begun hq'
    have hplace : p = q := hs.hub.place hq' hr hbegun.device
    rw [← hplace] at hhanded
    exact hs.agents.apart i j a b ha hb (Or.inr ⟨id, hida⟩) (Or.inr ⟨id, hidb⟩) (hone b.device id (hhanded id hidb)).symm

private def nasDevice : JsString := js "q83vEjRWeJCrze8SNFZ4kKvN7xI0VniQq83vEjRWeJA"

private theorem nasCode_drawn :
    (js "ABCDEFGH").length = 8 ∧ ((js "ABCDEFGH").all fun u => ALPHABET.contains u) = true := by decide +kernel

private def nasCode : UserCode := ⟨js "ABCDEFGH", nasCode_drawn⟩

/-- The hashes of the two codes of the run. -/
private def nasHash (s : JsString) : JsString :=
  if s = nasDevice then js "53c90ed83c02ae89d5aa748975ed3b64af5e67792f82a5a9792659be215a5255"
  else if s = nasCode.1 then js "9ac2197d9258257b1ae8463e4214e4cd0a578bc1517f2415928b91be4283fc48"
  else s

private theorem isHex64_secret : isHex64 (List.replicate 64 0x61) = true := by decide

private def nasSecret : Secret := ⟨List.replicate 64 0x61, isHex64_secret⟩

private def nasId : NodeId := ⟨js "abcdefghijk2", by decide⟩

private def nasRun : List LinkingStep := [
  ⟨0, .run nasSecret (js "nas") (js "linux") (js "bash/1.4.0") (js "10.0.0.7")⟩,
  ⟨1000, .ask 0 nasDevice [nasCode] .heard⟩,
  ⟨6000, .poll 0 .unheard false⟩,
  ⟨9000, .approve (js "abcd-efgh") ⟨js "10.0.0.2", js "admin"⟩ (js "nas") [js "home"] [nasId] true⟩,
  ⟨16000, .poll 0 .heard false⟩,
  ⟨17000, .pair 0 true⟩]

private def hubId : NodeId := ⟨js "222222222222", by decide⟩

private def hubSecret : Secret := ⟨List.replicate 64 0x62, by decide⟩

/-- An agent is approved, polls and saves its credentials: the hub knows it by its secret. -/
theorem nas_linked :
    ∃ n, (Runs.run (step nasHash) (start none (js "hub") hubId hubSecret 0) nasRun).store.find nasId = some n ∧
      n.secret = nasSecret.1 := by
  set s := Runs.run (step nasHash) (start none (js "hub") hubId hubSecret 0) nasRun with hs
  have hsaved : (s.agents[0]?).map (fun a => (a.phase, a.secret.1)) = some (.saved nasId, nasSecret.1) := by
    decide +kernel
  have hkept : (s.store.find nasId).all (fun n => !n.revoked) = true ∧ s.rotated = [] := by decide +kernel
  obtain ⟨a, ha, he⟩ := Option.map_eq_some_iff.1 hsaved
  obtain ⟨hphase, hsecret⟩ := Prod.mk.inj he
  obtain ⟨-, n, hn, hwhy⟩ :=
    (@linked_soundly nasHash none (js "hub") hubId hubSecret 0 nasRun (by decide +kernel)).1 0 a nasId ha (Or.inr hphase)
  refine ⟨n, hn, ?_⟩
  rw [hn, Option.all_some] at hkept
  rcases hwhy with hr | hr | hr
  · rw [hr] at hkept
    exact absurd hkept.1 (by decide)
  · rw [← hs, hkept.2] at hr
    exact absurd hr List.not_mem_nil
  · exact hr.trans hsecret

end Linking

end Servitals
