import Servitals.Rules

/-!
# A node's view and the values rules watch

The part of a node's view (the validated snapshot with what the hub derives) that the alert engine and the history
read, and `valuesOf`: the values a metric has in it, or `none` when the push lacks the metric's group.
-/

namespace Servitals

structure Cpu where
  usage : Option ℚ
  iowait : Option ℚ
  load : Option (List ℚ)

structure Mem where
  total : Option ℚ
  used : Option ℚ
  swapTotal : Option ℚ
  swapUsed : Option ℚ

structure Temp where
  package : Option ℚ

/-- `some` of each resource's pressure stall information. -/
structure Pressure where
  cpu : Option ℚ
  mem : Option ℚ
  io : Option ℚ

structure Net where
  rateRx : Option ℚ
  rateTx : Option ℚ

structure Disk where
  mount : JsString
  mounted : Option Bool
  pct : Option ℚ

structure IoDevice where
  device : JsString
  readRate : Option ℚ
  writeRate : Option ℚ

structure Container where
  name : JsString
  state : Option JsString
  health : Option JsString
  cpu : Option ℚ
  mem : Option ℚ

structure Ubuntu where
  failedUnits : Option (List JsString)
  rebootRequired : Option Bool
  security : Option ℚ

/-- A node's view; `none` is a group or a number the push did not have. -/
structure View where
  interval : ℤ
  cpu : Option Cpu
  mem : Option Mem
  temp : Option Temp
  pressure : Option Pressure
  net : Option Net
  disks : Option (List Disk)
  io : Option (List IoDevice)
  docker : Option (List Container)
  ubuntu : Option Ubuntu

/-- The view of a push with the required parts only. -/
def View.bare (interval : ℤ) : View where
  interval := interval
  cpu := none
  mem := none
  temp := none
  pressure := none
  net := none
  disks := none
  io := none
  docker := none
  ubuntu := none

/-- `Math.round`. -/
def mathRound (x : ℚ) : ℤ := ⌊x + 1 / 2⌋

/-- `Math.round((part * 1000) / total) / 10`: a part in percent, with one decimal. -/
def percent (part total : ℚ) : ℚ := (mathRound (part * 1000 / total) : ℚ) / 10

/-- One value of a metric; `sub` is its disk or container, empty for the node as a whole. -/
structure SubValue where
  sub : JsString
  value : ℚ
  deriving DecidableEq

/-- The containers of a push: a list of some. -/
def View.containers (v : View) : Option (List Container) := v.docker.filter fun cs => !cs.isEmpty

/-- Is a container down: not running, or unhealthy? -/
def Container.down (c : Container) : Bool := c.state != some (js "running") || c.health == some (js "unhealthy")

/-- `valuesOf`: a metric's values in a view, `none` when the push lacks the group.  `running` are the containers
seen running; a disk that is unmounted or has no number is not in the list. -/
def valuesOf (metric : Metric) (v : View) (running : List JsString) : Option (List SubValue) :=
  let whole (x : Option ℚ) : Option (List SubValue) := x.map fun value => [⟨[], value⟩]
  match metric with
  | .offline => none
  | .diskUsed => v.disks.map fun ds => ds.filterMap fun d =>
      if d.mounted == some false then none else d.pct.map fun pct => ⟨d.mount, pct⟩
  | .mem => whole (v.mem.bind fun m => m.total.bind fun total =>
      if 0 < total then m.used.map fun used => percent used total else none)
  | .cpu => whole (v.cpu.bind Cpu.usage)
  | .temp => whole (v.temp.bind Temp.package)
  | .containerDown => v.containers.map fun cs =>
      (cs.filter fun c => running.contains c.name).map fun c => ⟨c.name, if c.down then 1 else 0⟩
  | .failedUnits => whole (v.ubuntu.bind fun u => u.failedUnits.map fun us => (us.length : ℚ))
  | .rebootRequired => whole (v.ubuntu.bind fun u => u.rebootRequired.map fun b => if b then 1 else 0)
  | .securityUpdates => whole (v.ubuntu.bind Ubuntu.security)

/-- The containers seen running after a push: kept as they were when it has no containers, else with the running
ones added and the ones no longer listed removed. -/
def seenRunning (before : List JsString) (v : View) : List JsString :=
  match v.containers with
  | none => before
  | some cs =>
    let added := cs.foldl (fun run c =>
      if c.state == some (js "running") && !run.contains c.name then run ++ [c.name] else run) before
    added.filter fun name => cs.any fun c => c.name == name

end Servitals
