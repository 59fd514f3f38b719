import Servitals.Alerts

/-!
# The hub around the alert engine

What `hub/server.js` does between its requests: a push accepted by the agent API goes to the latest snapshots, the
engine and the disk (`onSnapshot`), the engine is asked once a minute (`minute`), and a start reads the snapshots of
the listed nodes back from the disk.  A step happens at a time of the hub's clock.
-/

namespace Servitals

/-- The latest push of a node, as memory and the disk keep it. -/
structure SnapRec where
  view : View
  pushedAt : ℤ

/-- The hub's state; `clock` is the time of its last step, `snapshots` the files on the disk. -/
structure Hub where
  engine : Engine
  nodes : List Node
  latest : OMap NodeId SnapRec
  snapshots : OMap NodeId SnapRec
  hubStart : ℤ
  clock : ℤ

namespace Hub

/-- The hub on an empty directory. -/
def start (saved : List SavedRule) (t : ℤ) : Hub where
  engine := .create (buildRules saved)
  nodes := []
  latest := .empty
  snapshots := .empty
  hubStart := t
  clock := t

/-- Is the node listed: paired, and not revoked? -/
def Listed (h : Hub) (id : NodeId) : Prop := ∃ n ∈ h.nodes, n.id = id

/-- A node as the engine is told of it on a push; one without a name goes by its id. -/
def pushing (n : Node) : Node := { n with name := if n.name == [] then n.id.1 else n.name }

/-- `onSnapshot`; `written` says whether the file could be written. -/
def onSnapshot (h : Hub) (n : Node) (v : View) (written : Bool) (t : ℤ) : Hub :=
  let r : SnapRec := ⟨v, t⟩
  { h with
    latest := h.latest.set n.id r
    engine := h.engine.evaluate (pushing n) v t
    snapshots := if written then h.snapshots.set n.id r else h.snapshots }

/-- A node as the minute's check is told of it.  Its time runs from the hub's start at the earliest. -/
def checked (h : Hub) (n : Node) : CheckedNode where
  toNode := n
  lastPush := (h.latest.get? n.id).map fun rec => max rec.pushedAt h.hubStart
  interval := (h.latest.get? n.id).map fun rec => rec.view.interval

inductive HubOp
  | push (id : NodeId) (v : View) (written : Bool)
  | minute
  | muteRule (id : RuleId) (til : ℚ)
  | muteNode (id : NodeId) (til : ℚ)
  | setRules (saved : List SavedRule)
  | pair (n : Node)
  | edit (id : NodeId) (name : JsString) (tags : List JsString)
  | revoke (id : NodeId)
  | restart (saved : List SavedRule)

/-- A step at a time of the hub's clock. -/
structure HubStep where
  time : ℤ
  op : HubOp

/-- One step; the pushes are those the agent API accepted, so only a listed node's counts. -/
def effect (h : Hub) (t : ℤ) : HubOp → Hub
  | .push id v written =>
    match h.nodes.find? fun n => n.id = id with
    | some n => h.onSnapshot n v written t
    | none => h
  | .minute => { h with engine := h.engine.check (h.nodes.map h.checked) t }
  | .muteRule id til => { h with engine := h.engine.muteRule id til t }
  | .muteNode id til => { h with engine := h.engine.muteNode id til t }
  | .setRules saved => { h with engine := h.engine.setRules (buildRules saved) t }
  | .pair n => if h.nodes.any fun m => m.id = n.id then h else { h with nodes := h.nodes ++ [n] }
  | .edit id name tags =>
    { h with nodes := h.nodes.map fun n => if n.id = id then { n with name := name, tags := tags } else n }
  | .revoke id =>
    { h with
      nodes := h.nodes.filter fun n => n.id ≠ id
      latest := h.latest.erase id
      snapshots := h.snapshots.erase id
      engine := h.engine.forget id t }
  | .restart saved =>
    { h with
      engine := h.engine.restart (buildRules saved) t
      latest := h.snapshots.filter fun id rec => h.nodes.any (fun n => n.id = id) && rec.pushedAt != 0
      hubStart := t }

def step (h : Hub) (s : HubStep) : Hub := { h.effect s.time s.op with clock := s.time }

end Hub

end Servitals
