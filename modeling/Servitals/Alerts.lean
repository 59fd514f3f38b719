import Servitals.Lib.OMap
import Servitals.View

/-!
# The alert engine

The engine of `hub/lib/alerts.js`: instances (a rule on a node, and on a disk or container where it has those) that
go ok → pending → firing and end, judged on each push (`evaluate`) and once a minute (`check`), the mutes, the
rules in force and what a restart reads back.

`notes` is the alert log: every event with why it stayed quiet; the ones that did not are handed to `onEvent`.
`moves` is a history variable that no function reads: every judgement and every end of an instance, in order.
-/

namespace Servitals

inductive AlertState
  | ok | pending | firing
  deriving DecidableEq

/-- An instance; `value` is what it was last judged on (`none` after a restart or when its sub is gone). -/
structure Inst where
  rule : RuleId
  node : NodeId
  nodeName : JsString
  sub : JsString
  state : AlertState
  since : ℤ
  value : Option ℚ
  firedAt : Option ℤ := none
  severity : Option Severity := none
  notified : Bool := false
  lastNotified : Option ℤ := none
  deriving DecidableEq

namespace Inst

/-- `inst.value = value; inst.nodeName = node.name` -/
def seen (i : Inst) (value : Option ℚ) (name : JsString) : Inst := { i with value := value, nodeName := name }

/-- `if (inst.state === "ok") { inst.state = "pending"; inst.since = t; }` -/
def started (i : Inst) (t : ℤ) : Inst := if i.state = .ok then { i with state := .pending, since := t } else i

/-- `inst.state = "firing"; inst.firedAt = t; inst.severity = r.severity` -/
def fired (i : Inst) (r : Rule) (t : ℤ) : Inst :=
  { i with state := .firing, firedAt := some t, severity := some r.severity }

/-- `inst.notified = told; if (inst.notified) inst.lastNotified = t` -/
def notedAt (i : Inst) (told : Bool) (t : ℤ) : Inst :=
  { i with notified := told, lastNotified := if told then some t else i.lastNotified }

end Inst

/-- What an alert is about: a rule on a node, and a disk or container (empty when it has none). -/
structure Ident where
  rule : RuleId
  node : NodeId
  sub : JsString
  deriving DecidableEq

/-- `${r.id}|${node.id}|${sub}` -/
def Ident.key (i : Ident) : JsString := i.rule.str ++ bar :: (i.node.1 ++ bar :: i.sub)

def Inst.ident (i : Inst) : Ident := ⟨i.rule, i.node, i.sub⟩

theorem Ident.key_inj {i j : Ident} (h : i.key = j.key) : i = j := by
  obtain ⟨hr, h⟩ := append_sep_inj (bar_notMem_ruleId i.rule) (bar_notMem_ruleId j.rule) h
  obtain ⟨hn, hs⟩ := append_sep_inj (bar_notMem_nodeId i.node) (bar_notMem_nodeId j.node) h
  cases i
  cases j
  simp only [mk.injEq]
  exact ⟨ruleId_str_inj hr, Subtype.ext hn, hs⟩

/-- `st.instances`: the instances by key, each under the key of what it is about. -/
structure Instances where
  map : OMap JsString Inst
  keyed : ∀ k i, map.get? k = some i → i.ident.key = k

namespace Instances

def empty : Instances := ⟨.empty, fun _ _ h => by cases h⟩

/-- `st.instances[key]` -/
def get? (is : Instances) (id : Ident) : Option Inst := is.map.get? id.key

/-- `st.instances[key] = inst` -/
def put (is : Instances) (i : Inst) : Instances where
  map := is.map.set i.ident.key i
  keyed := by
    intro k j h
    rw [OMap.get?_set] at h
    split at h
    · rename_i hk
      cases h
      exact hk.symm
    · exact is.keyed k j h

/-- `delete st.instances[key]` -/
def del (is : Instances) (id : Ident) : Instances where
  map := is.map.erase id.key
  keyed := by
    intro k j h
    rw [OMap.get?_erase] at h
    split at h
    · cases h
    · exact is.keyed k j h

/-- The instances as `save` writes them: without their values. -/
def saved (is : Instances) : Instances where
  map := is.map.mapVal fun i => { i with value := none }
  keyed := by
    intro k j h
    rw [OMap.get?_mapVal, Option.map_eq_some_iff] at h
    obtain ⟨i, hi, rfl⟩ := h
    exact is.keyed k i hi

/-- `Object.values(st.instances)` -/
def list (is : Instances) : List Inst := is.map.values

@[simp]
theorem get?_empty (id : Ident) : empty.get? id = none := rfl

theorem ident_of_get? {is : Instances} {id : Ident} {i : Inst} (h : is.get? id = some i) : i.ident = id :=
  Ident.key_inj (is.keyed _ _ h)

theorem get?_put (is : Instances) (i : Inst) (id : Ident) :
    (is.put i).get? id = if id = i.ident then some i else is.get? id := by
  simp only [get?, put, OMap.get?_set]
  by_cases h : id = i.ident
  · rw [if_pos (by rw [h]), if_pos h]
  · rw [if_neg (fun hk => h (Ident.key_inj hk)), if_neg h]

theorem get?_del (is : Instances) (id id' : Ident) :
    (is.del id).get? id' = if id' = id then none else is.get? id' := by
  simp only [get?, del, OMap.get?_erase]
  by_cases h : id' = id
  · rw [if_pos (by rw [h]), if_pos h]
  · rw [if_neg (fun hk => h (Ident.key_inj hk)), if_neg h]

@[simp]
theorem get?_saved (is : Instances) (id : Ident) :
    is.saved.get? id = (is.get? id).map fun i => { i with value := none } :=
  OMap.get?_mapVal _ _ _

theorem mem_list_iff {is : Instances} {i : Inst} : i ∈ is.list ↔ is.get? i.ident = some i := by
  simp only [list, OMap.mem_values_iff, get?]
  constructor
  · rintro ⟨k, hk⟩
    rw [is.keyed k i hk]
    exact hk
  · intro h
    exact ⟨_, h⟩

end Instances

inductive Kind
  | firing | repeated | resolved
  deriving DecidableEq

structure Event where
  kind : Kind
  rule : RuleId
  name : Option JsString
  metric : Option Metric
  severity : Severity
  node : NodeId
  nodeName : JsString
  sub : Option JsString
  value : Option ℚ
  time : ℤ
  since : ℤ
  endedByRule : Bool
  deriving DecidableEq

def Event.ident (e : Event) : Ident := ⟨e.rule, e.node, e.sub.getD []⟩

/-- Why an event is not passed on. -/
inductive Why
  | muted | offline | untold
  deriving DecidableEq

/-- An event in the log; `quiet = none` when it was passed on. -/
structure Note where
  event : Event
  quiet : Option Why
  deriving DecidableEq

/-- Why an instance was touched: judged under a rule on a value (`none`: its sub is gone), or ended. -/
inductive Cause
  | judged (r : Rule) (value : Option ℚ)
  | ended

/-- One entry of the history variable: an instance, its state before and after. -/
structure Move where
  ident : Ident
  cause : Cause
  time : ℤ
  before : Option AlertState
  after : Option AlertState

/-- A node as the minute's check is told of it. -/
structure CheckedNode extends Node where
  lastPush : Option ℤ
  interval : Option ℤ

/-- How long a node may be silent: ten minutes, or five intervals when that is longer. -/
def limitOf (interval : Option ℤ) : ℤ :=
  max (10 * MIN) (5 * ((interval.filter (· != 0)).getD 60) * 1000)

/-- What `tell` reads of a rule; a rule that is gone has only a severity. -/
structure RuleInfo where
  id : Option RuleId
  name : Option JsString
  metric : Option Metric
  severity : Severity

def Rule.info (r : Rule) : RuleInfo := ⟨some r.id, r.name, some r.metric, r.severity⟩

/-- `value !== null && OPS[r.op](value, r.threshold)`: does the value meet the rule?  A sub that is gone does not. -/
def Rule.holds (r : Rule) (value : Option ℚ) : Bool := value.any fun v => r.op.holds v r.threshold

/-- Is a firing alert over: its sub is gone, or the value is past the clear level (the threshold without one)? -/
def Rule.isOver (r : Rule) (value : Option ℚ) : Bool :=
  match value, r.clear with
  | none, _ => true
  | some v, some c => !r.op.holds v c
  | some v, none => !r.op.holds v r.threshold

structure Engine where
  rules : List Rule
  instances : Instances
  running : OMap NodeId (List JsString)
  muteRules : OMap RuleId ℚ
  muteNodes : OMap NodeId ℚ
  notes : List Note
  moves : List Move

namespace Engine

/-- The state of an identity: none when it has no instance. -/
def stateOf (e : Engine) (id : Ident) : Option AlertState := (e.instances.get? id).map Inst.state

def put (e : Engine) (i : Inst) : Engine := { e with instances := e.instances.put i }

def del (e : Engine) (id : Ident) : Engine := { e with instances := e.instances.del id }

/-- The events handed to `onEvent`, in order. -/
def told (e : Engine) : List Event := e.notes.filterMap fun n => if n.quiet.isNone then some n.event else none

/-- `rules.find((x) => x.id === id)` -/
def ruleOf (e : Engine) (id : RuleId) : Option Rule := e.rules.find? fun r => r.id = id

/-! ### Telling -/

def muted (e : Engine) (i : Inst) (t : ℤ) : Bool :=
  decide ((t : ℚ) < (e.muteRules.get? i.rule).getD 0) || decide ((t : ℚ) < (e.muteNodes.get? i.node).getD 0)

/-- Is the node's offline alert firing? -/
def offline (e : Engine) (node : NodeId) : Bool :=
  e.stateOf ⟨.default .offline, node, []⟩ == some .firing

/-- Why an instance is not told now: it is muted, or its node is offline. -/
def quiet (e : Engine) (i : Inst) (r : RuleInfo) (t : ℤ) : Option Why :=
  if e.muted i t then some .muted
  else if r.id != some (.default .offline) && e.offline i.node then some .offline
  else none

def eventOf (kind : Kind) (i : Inst) (r : RuleInfo) (t : ℤ) (endedByRule : Bool) : Event where
  kind := kind
  rule := i.rule
  name := r.name.filter (· != [])
  metric := r.metric
  severity := r.severity
  node := i.node
  nodeName := i.nodeName
  sub := if i.sub == [] then none else some i.sub
  value := i.value
  time := t
  since := i.since
  endedByRule := endedByRule

/-- Why `tell` keeps an event quiet.  The end of an alert whose start was told is always told. -/
def why (e : Engine) (kind : Kind) (i : Inst) (r : RuleInfo) (t : ℤ) : Option Why :=
  match kind with
  | .resolved => if i.notified then none else (e.quiet i r t).or (some .untold)
  | _ => e.quiet i r t

/-- `tell`: the event goes to the log with why it stays quiet, and is passed on unless it does. -/
def tell (e : Engine) (kind : Kind) (i : Inst) (r : RuleInfo) (t : ℤ) (endedByRule : Bool) : Engine :=
  { e with notes := e.notes ++ [⟨eventOf kind i r t endedByRule, e.why kind i r t⟩] }

/-- `retell`: a firing alert not told yet is told once it is no longer quiet; a told one repeats. -/
def retell (e : Engine) (i : Inst) (r : Rule) (t : ℤ) : Engine :=
  if !i.notified && (e.quiet i r.info t).isNone then
    (e.tell .firing i r.info t false).put (i.notedAt true t)
  else if i.notified && i.lastNotified.any (fun l => decide (r.repeatTime ≤ t - l)) &&
      (e.quiet i r.info t).isNone then
    (e.tell .repeated i r.info t false).put (i.notedAt true t)
  else e

/-! ### Judging one instance -/

/-- The instance as `judge` makes it when the rule first holds. -/
def fresh (r : Rule) (node : Node) (sub : JsString) (value : Option ℚ) (t : ℤ) : Inst where
  rule := r.id
  node := node.id
  nodeName := node.name
  sub := sub
  state := .ok
  since := t
  value := value

/-- An instance that is not firing and whose rule holds: it is pending, and fires once it was for the rule's
time. -/
def ripen (e : Engine) (i : Inst) (r : Rule) (t : ℤ) : Engine :=
  let i := i.started t
  let e := e.put i
  if r.forTime ≤ t - i.since then
    let i := i.fired r t
    let e := e.put i
    let isTold := (e.why .firing i r.info t).isNone
    (e.tell .firing i r.info t false).put (i.notedAt isTold t)
  else e

/-- The instance, as it was found or made, with the value it is judged on. -/
def judgeInst (e : Engine) (i : Inst) (r : Rule) (value : Option ℚ) (t : ℤ) : Engine :=
  let e := e.put i
  if i.state = .firing then
    if r.isOver value then (e.tell .resolved i r.info t false).del i.ident else e.retell i r t
  else if r.holds value then e.ripen i r t
  else e.del i.ident

/-- `judge`: one instance on one value (`none`: its disk or container is gone, so it ends). -/
def judge (e : Engine) (r : Rule) (node : Node) (sub : JsString) (value : Option ℚ) (t : ℤ) : Engine :=
  match e.instances.get? ⟨r.id, node.id, sub⟩ with
  | some i => e.judgeInst (i.seen value node.name) r value t
  | none => if r.holds value then e.judgeInst ((fresh r node sub value t).seen value node.name) r value t else e

/-- `judge`, entered in the history variable. -/
def judged (e : Engine) (r : Rule) (node : Node) (sub : JsString) (value : Option ℚ) (t : ℤ) : Engine :=
  let id : Ident := ⟨r.id, node.id, sub⟩
  let e' := e.judge r node sub value t
  { e' with moves := e'.moves ++ [⟨id, .judged r value, t, e.stateOf id, e'.stateOf id⟩] }

/-! ### Ends -/

/-- `delete st.instances[k]`, entered in the history variable. -/
def drop (e : Engine) (i : Inst) (t : ℤ) : Engine :=
  let e' := e.del i.ident
  { e' with moves := e'.moves ++ [⟨i.ident, .ended, t, e.stateOf i.ident, none⟩] }

/-- `end`: an alert that is over for another reason than its values; a told one ends told. -/
def finish (e : Engine) (i : Inst) (r : RuleInfo) (endedByRule : Bool) (t : ℤ) : Engine :=
  (if i.state = .firing then e.tell .resolved i r t endedByRule else e).drop i t

/-- A loop over `Object.values(st.instances)`: the instances there are when it starts, each as it is when its turn
comes. -/
def forInstances (e : Engine) (body : Engine → Inst → Engine) : Engine :=
  e.instances.list.foldl (fun e i => match e.instances.get? i.ident with
    | some i => body e i
    | none => e) e

/-- `endAll`: a rule that no longer holds for a node; its alerts there end. -/
def endAll (e : Engine) (r : Rule) (node : NodeId) (t : ℤ) : Engine :=
  e.forInstances fun e i => if i.rule = r.id ∧ i.node = node then e.finish i r.info true t else e

/-- What an ended alert is told with when its rule is gone: the rule before the edit, or the severity it fired
with. -/
def lostRule (old : List Rule) (i : Inst) : RuleInfo :=
  match old.find? fun r => r.id = i.rule with
  | some r => r.info
  | none => ⟨none, none, none, i.severity.getD .warning⟩

/-- The alerts of a rule removed or turned off end. -/
def pruned (e : Engine) (old : List Rule) (t : ℤ) : Engine :=
  e.forInstances fun e i => match e.ruleOf i.rule with
    | some r => if r.off then e.finish i r.info true t else e
    | none => e.finish i (lostRule old i) true t

/-- `prune`: the alerts of a rule removed or turned off end; the mutes of a rule removed go. -/
def prune (e : Engine) (old : List Rule) (t : ℤ) : Engine :=
  let e := e.pruned old t
  { e with muteRules := e.muteRules.filter fun id _ => (e.ruleOf id).isSome }

/-! ### The entry points -/

/-- The values of a group that a rule looks at: all of them, or those of its own disk or container. -/
def watched (r : Rule) (vals : List SubValue) : List SubValue :=
  match r.sub with
  | none => vals
  | some s => if s == [] then vals else vals.filter fun x => x.sub == s

/-- One rule on a group that is present: each value is judged, and the instances whose sub is not among them end. -/
def judgeGroup (e : Engine) (r : Rule) (node : Node) (vals : List SubValue) (t : ℤ) : Engine :=
  let vals := watched r vals
  let e := vals.foldl (fun e x => e.judged r node x.sub (some x.value) t) e
  e.forInstances fun e i =>
    if i.rule = r.id ∧ i.node = node.id ∧ !(vals.map SubValue.sub).contains i.sub then e.judged r node i.sub none t
    else e

/-- One rule on a push; a push that lacks its group leaves its alerts as they are. -/
def evaluateRule (node : Node) (v : View) (run : List JsString) (t : ℤ) (e : Engine) (rule : Rule) : Engine :=
  match forNode rule node with
  | none => e.endAll rule node.id t
  | some r =>
    if r.metric = .offline then e.judged r node [] (some 0) t
    else match valuesOf r.metric v run with
      | none => e
      | some vals => e.judgeGroup r node vals t

/-- The containers seen running on a node. -/
def runningOf (e : Engine) (node : NodeId) : List JsString := (e.running.get? node).getD []

/-- The containers of the push are remembered before the rules are judged. -/
def see (e : Engine) (node : NodeId) (v : View) : Engine :=
  if v.containers.isSome then { e with running := e.running.set node (seenRunning (e.runningOf node) v) } else e

/-- `evaluate`: a push from a node. -/
def evaluate (e : Engine) (node : Node) (v : View) (t : ℤ) : Engine :=
  let run := seenRunning (e.runningOf node.id) v
  e.rules.foldl (evaluateRule node v run t) (e.see node.id v)

/-- `inst.node !== n.id || inst.state !== "firing" || inst.rule === "offline"`: the rest of a node's check. -/
def checkOthers (e : Engine) (n : Node) (stale : Bool) (t : ℤ) : Engine :=
  e.forInstances fun e i =>
    if i.node ≠ n.id ∨ i.state ≠ .firing ∨ i.rule = .default .offline then e
    else match e.ruleOf i.rule with
      | none => e
      | some r => match forNode r n with
        | none => e.finish i r.info true t
        | some eff => if stale then e else e.retell i eff t

/-- One node of the minute's check; a node that never pushed is waiting, not offline. -/
def checkNode (t : ℤ) (e : Engine) (n : CheckedNode) : Engine :=
  match n.lastPush.filter (· != 0) with
  | none => e
  | some last =>
    let stale := decide (limitOf n.interval ≤ t - last)
    let e := match e.rules.find? fun r => r.metric = .offline with
      | none => e
      | some off => match forNode off n.toNode with
        | some r => e.judged r n.toNode [] (some (if stale then 1 else 0)) t
        | none => e.endAll off n.id t
    e.checkOthers n.toNode stale t

/-- `check`: once a minute. -/
def check (e : Engine) (nodes : List CheckedNode) (t : ℤ) : Engine := nodes.foldl (checkNode t) e

/-- `mute` of a rule; a mute until now or earlier is an unmute. -/
def muteRule (e : Engine) (id : RuleId) (til : ℚ) (t : ℤ) : Engine :=
  { e with muteRules := if (t : ℚ) < til then e.muteRules.set id til else e.muteRules.erase id }

/-- `mute` of a node. -/
def muteNode (e : Engine) (id : NodeId) (til : ℚ) (t : ℤ) : Engine :=
  { e with muteNodes := if (t : ℚ) < til then e.muteNodes.set id til else e.muteNodes.erase id }

/-- An alert as `firing` lists it; a rule that is gone has no name and severity. -/
structure Firing where
  rule : RuleId
  name : Option JsString
  severity : Option Severity
  node : NodeId
  nodeName : JsString
  sub : JsString
  value : Option ℚ
  since : ℤ
  firedAt : Option ℤ
  muted : Bool
  quiet : Option Why
  deriving DecidableEq

/-- `firing`: the firing alerts, with why each is not told now. -/
def firing (e : Engine) (t : ℤ) : List Firing :=
  (e.instances.list.filter fun i => i.state = .firing).map fun i =>
    let r := e.ruleOf i.rule
    ⟨i.rule, (r.bind Rule.name).filter (· != []), r.map Rule.severity, i.node, i.nodeName, i.sub, i.value, i.since,
      i.firedAt, e.muted i t, e.quiet i ((r.map Rule.info).getD ⟨none, none, none, .warning⟩) t⟩

/-- `mutes`: those still running. -/
def mutes (e : Engine) (t : ℤ) : OMap RuleId ℚ × OMap NodeId ℚ :=
  (e.muteRules.filter fun _ u => decide ((t : ℚ) < u), e.muteNodes.filter fun _ u => decide ((t : ℚ) < u))

/-- `setRules`: new rules from the editor. -/
def setRules (e : Engine) (list : List Rule) (t : ℤ) : Engine :=
  prune { e with rules := list } e.rules t

/-- The alerts of a revoked node end; the told ones told. -/
def forgotten (e : Engine) (node : NodeId) (t : ℤ) : Engine :=
  e.forInstances fun e i =>
    if i.node ≠ node then e
    else match e.ruleOf i.rule with
      | some r => e.finish i r.info false t
      | none => e.drop i t

/-- `forget`: a revoked node. -/
def forget (e : Engine) (node : NodeId) (t : ℤ) : Engine :=
  let e := e.forgotten node t
  { e with running := e.running.erase node, muteNodes := e.muteNodes.erase node }

/-- `createAlerts` over what the last process saved: `save` leaves out the values; the alerts of a rule the new
list lacks end. -/
def restart (e : Engine) (rules : List Rule) (t : ℤ) : Engine :=
  prune { e with rules := rules, instances := e.instances.saved } [] t

/-- `createAlerts` over an empty directory. -/
def create (rules : List Rule) : Engine where
  rules := rules
  instances := .empty
  running := .empty
  muteRules := .empty
  muteNodes := .empty
  notes := []
  moves := []

/-! ### Runs -/

/-- A call of the engine, or its restart. -/
inductive EngineOp
  | evaluate (node : Node) (v : View)
  | check (nodes : List CheckedNode)
  | muteRule (id : RuleId) (til : ℚ)
  | muteNode (id : NodeId) (til : ℚ)
  | setRules (saved : List SavedRule)
  | forget (node : NodeId)
  | restart (saved : List SavedRule)

/-- A call at a time of the engine's clock. -/
structure Call where
  time : ℤ
  op : EngineOp

def call (e : Engine) (c : Call) : Engine :=
  match c.op with
  | .evaluate node v => e.evaluate node v c.time
  | .check nodes => e.check nodes c.time
  | .muteRule id til => e.muteRule id til c.time
  | .muteNode id til => e.muteNode id til c.time
  | .setRules saved => e.setRules (buildRules saved) c.time
  | .forget node => e.forget node c.time
  | .restart saved => e.restart (buildRules saved) c.time

end Engine

end Servitals
