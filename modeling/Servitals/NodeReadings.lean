import Servitals.Doubles
import Servitals.Snapshot
import Servitals.View

/-!
# What the hub reads of a snapshot

`view` and `trendPoint` of `hub/lib/snapshot.js`, `seriesOf` of `hub/lib/history.js` and `summary` of
`hub/lib/fleet.js`, over the snapshot that the validator let through, with the alert engine's view of it (`alertView`).

A number that an agent could not read is null or missing; in arithmetic null counts as 0, and what is missing makes NaN,
which is `none` here.  Shares are exact quotients; the rates of the counters are quotients of doubles.
-/

namespace Servitals

namespace Snapshot

/-! ### Values -/

/-- `v.k`; nothing of what is null or missing. -/
def at_ (v : Option Json) (k : String) : Option Json := v.bind fun v => v.get (js k)

/-- A finite number (`finite`, `num` of the alert engine). -/
def finite? : Option Json → Option ℚ
  | some (.num x) => x
  | _ => none

/-- A value as a number in arithmetic, none for NaN. -/
def toNumber : Option Json → Option ℚ
  | some (.num x) => x
  | some .null => some 0
  | some (.bool b) => some (if b then 1 else 0)
  | some (.str s) => jsNumber s
  | _ => none

/-- `v > 0` -/
def isPositive (v : Option Json) : Bool := (toNumber v).any fun x => 0 < x

def text : Option Json → Option JsString
  | some (.str s) => some s
  | _ => none

def flag : Option Json → Option Bool
  | some (.bool b) => some b
  | _ => none

def items : Option Json → Option (List Json)
  | some (.arr xs) => some xs
  | _ => none

/-- `Math.round((part * scale) / total)` -/
def ratio (scale : ℚ) (part total : Option Json) : Option ℤ :=
  (toNumber part).bind fun p => (toNumber total).map fun t => mathRound (p * scale / t)

/-- `Math.round((part * 1000) / total) / 10` -/
def percentOf (part total : Option Json) : Option ℚ := (ratio 1000 part total).map fun (n : ℤ) => (n : ℚ) / 10

/-! ### The view -/

/-- A point of the trend; null and NaN, which is sent as null, are `none`. -/
structure TrendPoint where
  cpu : Option ℚ
  mem : Option ℚ
  temp : Option ℚ

def TREND_LEN : ℕ := 60

/-- `trendPoint` -/
def trendPoint (s : Json) : TrendPoint where
  cpu := finite? (at_ (s.get (js "cpu")) "usage")
  mem :=
    let m := s.get (js "mem")
    if isPositive (at_ m "total") then percentOf (at_ m "used") (at_ m "total") else none
  temp := finite? (at_ (s.get (js "temp")) "package")

/-- The view of a node: the snapshot with what only the hub derives, and the trend. -/
structure NodeView where
  snap : Json
  trend : List TrendPoint

def ofRate (x : Option ℚ) : Json := (x.map fun x => Json.num (some x)).getD .null

/-- `rate`, in doubles: 17 bytes in 272 ms are 62.49999999999999 a second and so 62, not 63. -/
def rate (cur prev : Option Json) (dt : ℚ) : Option ℚ :=
  (finite? cur).bind fun c => (finite? prev).bind fun p =>
    if 0 < dt ∧ p ≤ c then some (mathRound (double (double (c - p) / double (dt / 1000)))) else none

/-- The counters of the network as rates; they are compared on the same interface. -/
def viewNet (cur : Json) (prev : Option Json) (dt : ℚ) : Json :=
  let n := cur.get (js "net")
  let before := at_ prev "net"
  let same := before.any (Json.isObj ·) && text (at_ before "iface") == text (at_ n "iface")
  let v := at_ n "vnstat"
  .obj (Json.clean [
    (js "iface", at_ n "iface"),
    (js "rateRx", some (ofRate (if same then rate (at_ n "rxBytes") (at_ before "rxBytes") dt else none))),
    (js "rateTx", some (ofRate (if same then rate (at_ n "txBytes") (at_ before "txBytes") dt else none))),
    (js "today", at_ v "today"), (js "month", at_ v "month"), (js "total", at_ v "total"), (js "days", at_ v "days"),
    (js "hours", at_ v "hours")])

/-- The entry of the snapshot before, the last one under a name. -/
def entryBefore (name : Json → Option JsString) (prev : Option Json) (group : String) (d : Json) : Option Json :=
  ((items (at_ prev group)).getD []).reverse.find? fun e => name e == name d

/-- A block device's counters as rates. -/
def viewDevice (prev : Option Json) (dt : ℚ) (d : Json) : Json :=
  let p := entryBefore (fun e => text (e.get (js "device"))) prev "io" d
  .obj (Json.clean [
    (js "device", d.get (js "device")),
    (js "readRate", some (ofRate (rate (d.get (js "readBytes")) (at_ p "readBytes") dt))),
    (js "writeRate", some (ofRate (rate (d.get (js "writeBytes")) (at_ p "writeBytes") dt)))])

/-- `c.id || c.name` -/
def containerKey (c : Json) : Option JsString :=
  if (text (c.get (js "id"))).any fun s => s ≠ [] then text (c.get (js "id")) else text (c.get (js "name"))

/-- The share of the processor that a container had. -/
def containerCpu (cores dt : ℚ) (c : Json) (p : Option Json) : Option ℚ :=
  (finite? (c.get (js "cpuUsec"))).bind fun now => (finite? (at_ p "cpuUsec")).bind fun before =>
    if 0 < dt ∧ before ≤ now then some (min 100 ((mathRound (1000 * (now - before) / (dt * 1000 * cores)) : ℚ) / 10))
    else none

/-- A container without its counter, with its share of the processor. -/
def viewContainer (prev : Option Json) (cores dt : ℚ) (c : Json) : Json :=
  match c with
  | .obj m => .obj (Json.put (Json.remove m (js "cpuUsec")) (js "cpu")
      (ofRate (containerCpu cores dt c (entryBefore containerKey prev "docker" c))))
  | c => c

/-- `view` -/
def view (cur : Json) (prev : Option Json) (trend : List TrendPoint) : NodeView :=
  let dt := (prev.bind fun p => (finite? (cur.get (js "ts"))).bind fun t =>
    (finite? (p.get (js "ts"))).map fun t' => t - t').getD 0
  let cores := ((finite? (at_ (cur.get (js "cpu")) "cores")).filter fun x => x ≠ 0).getD 1
  let derived : List (JsString × Option Json) := [
    (js "net", ((cur.get (js "net")).filter Json.isObj).map fun _ => viewNet cur prev dt),
    (js "io", (items (cur.get (js "io"))).map fun ds => .arr (ds.map (viewDevice prev dt))),
    (js "docker", (items (cur.get (js "docker"))).map fun cs => .arr (cs.map (viewContainer prev cores dt)))]
  match cur with
  | .obj m => ⟨.obj (Json.spread m (Json.clean derived)), (trend ++ [trendPoint cur]).rtake TREND_LEN⟩
  | cur => ⟨cur, (trend ++ [trendPoint cur]).rtake TREND_LEN⟩

/-! ### The history's series -/

/-- A part of the memory in percent, of a total above zero. -/
def share (m : Option Json) (part total : String) : Option ℚ :=
  if (finite? (at_ m total)).any fun x => 0 < x then percentOf (at_ m part) (at_ m total) else none

/-- The values a view gives to series, those that are no numbers as none. -/
def seriesValues (v : Json) : List (JsString × Option ℚ) :=
  let c := v.get (js "cpu")
  let m := v.get (js "mem")
  let n := v.get (js "net")
  [(js "cpu", finite? (at_ c "usage")), (js "iowait", finite? (at_ c "iowait")),
    (js "load1", finite? ((items (at_ c "load")).bind List.head?)),
    (js "mem", share m "used" "total"), (js "swap", share m "swapUsed" "swapTotal"),
    (js "temp", finite? (at_ (v.get (js "temp")) "package"))] ++
  ["cpu", "mem", "io"].map (fun r => (js "psi." ++ js r, finite? (at_ (at_ (v.get (js "pressure")) r) "some"))) ++
  [(js "net.rx", finite? (at_ n "rateRx")), (js "net.tx", finite? (at_ n "rateTx"))] ++
  (((items (v.get (js "disks"))).getD []).filter fun d => flag (d.get (js "mounted")) ≠ some false).map (fun d =>
    (js "disk." ++ (text (d.get (js "mount"))).getD [] ++ js ".used", finite? (d.get (js "pct")))) ++
  ((items (v.get (js "io"))).getD []).flatMap (fun d =>
    let device := (text (d.get (js "device"))).getD []
    [(js "io." ++ device ++ js ".read", finite? (d.get (js "readRate"))),
      (js "io." ++ device ++ js ".write", finite? (d.get (js "writeRate")))]) ++
  ((items (v.get (js "docker"))).getD []).flatMap fun c =>
    let name := (text (c.get (js "name"))).getD []
    [(js "ctr." ++ name ++ js ".cpu", finite? (c.get (js "cpu"))),
      (js "ctr." ++ name ++ js ".mem", finite? (c.get (js "mem")))]

/-- `put`: a number under its name. -/
def putValue (out : OMap JsString ℚ) (e : JsString × Option ℚ) : OMap JsString ℚ := e.2.elim out (out.set e.1)

/-- `seriesOf` -/
def seriesOf (v : NodeView) : OMap JsString ℚ := (seriesValues v.snap).foldl putValue .empty

/-! ### The fleet's card -/

/-- The numbers a fleet card shows; null and NaN, which is sent as null, are `none`. -/
structure Summary where
  host : Option (Option JsString × Option JsString)
  cpu : Option ℚ
  iowait : Option ℚ
  updates : Option ℚ
  reboot : Bool
  battery : Option ℚ
  mem : Option ℤ
  temp : Option ℚ
  disk : Option (Option JsString × ℚ)
  containers : Option ℕ
  running : Option ℕ
  trend : List (Option ℚ)

/-- The disk that is fullest, the first of several. -/
def fullest (ds : List Json) : Option (Option JsString × ℚ) :=
  ds.foldl (fun a d =>
    match if flag (d.get (js "mounted")) = some false then none else finite? (d.get (js "pct")) with
    | some pct => if a.any fun b => pct ≤ b.2 then a else some (text (d.get (js "mount")), pct)
    | none => a) none

/-- `summary` of a view. -/
def summary (v : NodeView) : Summary where
  host := ((v.snap.get (js "host")).filter Json.isObj).map fun h => (text (h.get (js "name")), text (h.get (js "distro")))
  cpu := finite? (at_ (v.snap.get (js "cpu")) "usage")
  iowait := finite? (at_ (v.snap.get (js "cpu")) "iowait")
  updates := finite? (at_ (v.snap.get (js "ubuntu")) "updates")
  reboot := (flag (at_ (v.snap.get (js "ubuntu")) "rebootRequired")).getD false
  battery := finite? (at_ (v.snap.get (js "battery")) "capacity")
  mem :=
    let m := v.snap.get (js "mem")
    if isPositive (at_ m "total") then ratio 100 (at_ m "used") (at_ m "total") else none
  temp := finite? (at_ (v.snap.get (js "temp")) "package")
  disk := fullest ((items (v.snap.get (js "disks"))).getD [])
  containers := (items (v.snap.get (js "docker"))).map List.length
  running := (items (v.snap.get (js "docker"))).map fun cs =>
    cs.countP fun c => text (c.get (js "state")) == some (js "running")
  trend := (v.trend.rtake 20).map TrendPoint.cpu

/-! ### The alert engine's view -/

/-- An object, read by its members. -/
def group {α : Type*} (v : Option Json) (read : Json → α) : Option α := (v.filter Json.isObj).map read

/-- What the alert engine reads of a view: a number that is null or missing is `none`. -/
def alertView (v : NodeView) : View where
  interval := ((finite? (v.snap.get (js "interval"))).map fun x => ⌊x⌋).getD 0
  cpu := group (v.snap.get (js "cpu")) fun c => ⟨finite? (c.get (js "usage")), finite? (c.get (js "iowait")),
    (items (c.get (js "load"))).map fun xs => xs.filterMap fun x => finite? (some x)⟩
  mem := group (v.snap.get (js "mem")) fun m => ⟨finite? (m.get (js "total")), finite? (m.get (js "used")),
    finite? (m.get (js "swapTotal")), finite? (m.get (js "swapUsed"))⟩
  temp := group (v.snap.get (js "temp")) fun t => ⟨finite? (t.get (js "package"))⟩
  pressure := group (v.snap.get (js "pressure")) fun p => ⟨finite? (at_ (p.get (js "cpu")) "some"),
    finite? (at_ (p.get (js "mem")) "some"), finite? (at_ (p.get (js "io")) "some")⟩
  net := group (v.snap.get (js "net")) fun n => ⟨finite? (n.get (js "rateRx")), finite? (n.get (js "rateTx"))⟩
  disks := (items (v.snap.get (js "disks"))).map fun ds => ds.map fun d =>
    ⟨(text (d.get (js "mount"))).getD [], flag (d.get (js "mounted")), finite? (d.get (js "pct"))⟩
  io := (items (v.snap.get (js "io"))).map fun ds => ds.map fun d =>
    ⟨(text (d.get (js "device"))).getD [], finite? (d.get (js "readRate")), finite? (d.get (js "writeRate"))⟩
  docker := (items (v.snap.get (js "docker"))).map fun cs => cs.map fun c =>
    ⟨(text (c.get (js "name"))).getD [], text (c.get (js "state")), text (c.get (js "health")),
      finite? (c.get (js "cpu")), finite? (c.get (js "mem"))⟩
  ubuntu := group (v.snap.get (js "ubuntu")) fun u => ⟨(items (u.get (js "failedUnits"))).map fun us =>
    us.map fun s => (text (some s)).getD [], flag (u.get (js "rebootRequired")), finite? (u.get (js "security"))⟩

end Snapshot

end Servitals
