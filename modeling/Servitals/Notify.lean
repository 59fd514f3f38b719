import Servitals.Alerts
import Servitals.Lib.Runs

/-!
# The notifier

`hub/lib/notify.js`: where the events of the alert engine go.  A critical event goes to the channels at once, a
warning too but in quiet hours, which hold it and end in one summary; info events wait for the daily digest.

The hub's local time and the printing of a number are parameters (`Locale`).  `queued` is a history variable: every
message put in a channel's queue, in order.
-/

namespace Servitals

/-- The local time of a moment, as minutes since midnight and as a day, and `String` of a number. -/
structure Locale where
  minutes : ℤ → ℕ
  day : ℤ → JsString
  number : ℚ → JsString

/-- A channel, as far as `deliver` reads it. -/
structure Channel where
  id : JsString
  min : Severity
  on : Bool
  digest : Bool

/-- Quiet hours, from one minute of the day to another. -/
structure Quiet where
  start : ℕ
  stop : ℕ

inductive MessageKind
  | alert | summary | digest
  deriving DecidableEq

structure Message where
  kind : MessageKind
  severity : Severity
  resolved : Bool
  title : JsString
  text : JsString
  event : Option Event
  deriving DecidableEq

structure Notifier where
  channels : List Channel
  quiet : Option Quiet
  digestAt : ℕ
  held : List Event
  digest : List Event
  digestDay : Option JsString
  queued : List (JsString × Message)

def MAX_HELD : ℕ := 500

def MAX_DIGEST : ℕ := 500

def Severity.rank : Severity → ℕ
  | critical => 0
  | warning => 1
  | info => 2

/-! ### Words -/

/-- `alert.rule.…` of the dictionary. -/
def DefaultId.label : DefaultId → JsString
  | offline => js "offline"
  | diskFull => js "disk full"
  | diskCritical => js "disk critical"
  | memory => js "memory"
  | cpu => js "cpu"
  | temperature => js "temperature"
  | containerDown => js "container down"
  | failedUnits => js "failed units"
  | rebootRequired => js "reboot required"
  | securityUpdates => js "security updates"

def Severity.label : Severity → JsString
  | critical => js "critical"
  | warning => js "warning"
  | info => js "info"

namespace Event

/-- `what`: the rule's name, and the sub. -/
def what (e : Event) : JsString :=
  let label := (e.name.filter (· ≠ [])).getD (match e.rule with
    | .default d => d.label
    | .own c => c.1)
  match e.sub.filter (· ≠ []) with
  | some sub => label ++ 0x20 :: sub
  | none => label

/-- `UNIT` -/
def unit (e : Event) : JsString :=
  match e.metric with
  | some .diskUsed | some .mem | some .cpu => js "%"
  | some .temp => js " °C"
  | _ => []

/-- A metric whose value is not shown. -/
def valueless (e : Event) : Bool :=
  match e.metric with
  | some .rebootRequired | some .containerDown | some .offline => true
  | some _ => false
  | none => e.rule.str == js "reboot_required" || e.rule.str == js "container.down" || e.rule.str == js "offline"

/-- `valueOf`: the value rounded to a tenth, with its unit. -/
def valueText (loc : Locale) (e : Event) : JsString :=
  match e.value with
  | some v => if e.valueless then [] else loc.number (⌊v * 10 + 1 / 2⌋ / 10) ++ e.unit
  | none => []

/-- The word for the kind of an event: an end whose rule is gone has its own. -/
def kindLabel (e : Event) : JsString :=
  if e.endedByRule then js "no longer watched"
  else match e.kind with
    | .firing => js "fired"
    | .repeated => js "still firing"
    | .resolved => js "resolved"

/-- `e.nodeName || e.node` -/
def nodeText (e : Event) : JsString := if e.nodeName = [] then e.node.1 else e.nodeName

/-- `line` -/
def line (loc : Locale) (e : Event) : JsString :=
  let v := e.valueText loc
  e.kindLabel ++ js ": " ++ e.what ++ js " on " ++ e.nodeText ++ if v = [] then [] else js " · " ++ v

end Event

/-- `String(n)` of a count. -/
def count (n : ℕ) : JsString := js (toString n)

/-- `String(z)` of an integer. -/
def intText (z : ℤ) : JsString := if z < 0 then 0x2d :: count z.natAbs else count z.natAbs

/-- `clock`: the local time as HH:MM. -/
def clockText (loc : Locale) (t : ℤ) : JsString :=
  let two (n : ℕ) : JsString := if n < 10 then 0x30 :: count n else count n
  two (loc.minutes t / 60) ++ 0x3a :: two (loc.minutes t % 60)

/-- `lines.join("\n")` -/
def joinLines (ls : List JsString) : JsString := [0x0a].intercalate ls

/-! ### Messages -/

def alertMessage (loc : Locale) (e : Event) : Message :=
  let head := if e.kind = .firing ∧ e.endedByRule = false then e.severity.label else e.kindLabel
  let v := e.valueText loc
  let since := if e.since = 0 then e.time else e.since
  { kind := .alert
    severity := e.severity
    resolved := e.kind = .resolved
    title := head ++ js ": " ++ e.what ++ js " on " ++ e.nodeText
    text := (if v = [] then [] else js "value " ++ v ++ [0x0a]) ++ js "since " ++ clockText loc since
    event := some e }

/-- The summary of quiet hours, a line for each of the events. -/
def summaryMessage (loc : Locale) (es : List Event) : Message :=
  { kind := .summary
    severity := .warning
    resolved := false
    title := js "after quiet hours: " ++ count es.length ++ js " held"
    text := joinLines (es.map (Event.line loc))
    event := none }

def digestMessage (loc : Locale) (es : List Event) : Message :=
  { kind := .digest
    severity := .info
    resolved := false
    title := js "daily digest: " ++ count es.length ++ js " events"
    text := joinLines (es.map (Event.line loc))
    event := none }

/-- `last.set(k, e); if (e.kind === "firing") firedInside.add(k)` -/
def noteHeld (acc : OMap JsString Event × List JsString) (e : Event) : OMap JsString Event × List JsString :=
  let k := e.ident.key
  (acc.1.set k e, if e.kind = .firing then k :: acc.2 else acc.2)

/-- What `releaseHeld` writes lines of: the last event of each alert, but for the ends of those that fired inside. -/
def summaryEvents (held : List Event) : List Event :=
  let (last, firedInside) := held.foldl noteHeld (OMap.empty, [])
  (last.entries.filter fun (k, e) => e.kind != .resolved || !firedInside.contains k).map Prod.snd

namespace Notifier

def inQuiet (loc : Locale) (n : Notifier) (t : ℤ) : Bool :=
  match n.quiet with
  | none => false
  | some q =>
    let m := loc.minutes t
    if q.start < q.stop then q.start ≤ m && m < q.stop else q.start ≤ m || m < q.stop

/-- `deliver`: the message goes into the queue of every channel that is on and wants it. -/
def deliver (n : Notifier) (m : Message) (to_ : Channel → Bool) : Notifier :=
  { n with queued := n.queued ++ ((n.channels.filter fun c => c.on && to_ c).map fun c => (c.id, m)) }

/-- Quiet hours over: one summary. -/
def releaseHeld (loc : Locale) (n : Notifier) : Notifier :=
  let es := summaryEvents n.held
  let n := { n with held := [] }
  if es = [] then n else n.deliver (summaryMessage loc es) fun c => Severity.warning.rank ≤ c.min.rank

/-- What is held is released when it is no longer quiet. -/
def releaseDue (loc : Locale) (n : Notifier) (t : ℤ) : Notifier :=
  if n.held ≠ [] ∧ n.inQuiet loc t = false then n.releaseHeld loc else n

/-- `onEvent` -/
def onEvent (loc : Locale) (n : Notifier) (e : Event) (t : ℤ) : Notifier :=
  let n := n.releaseDue loc t
  if 2 ≤ e.severity.rank then
    let digest := n.digest ++ [e]
    { n with digest := digest.drop (digest.length - MAX_DIGEST) }
  else if e.severity ≠ .critical ∧ n.inQuiet loc t = true then
    let held := n.held ++ [e]
    { n with held := held.drop (held.length - MAX_HELD) }
  else n.deliver (alertMessage loc e) fun c => e.severity.rank ≤ c.min.rank

/-- `tick`: once a minute. -/
def tick (loc : Locale) (n : Notifier) (t : ℤ) : Notifier :=
  let n := n.releaseDue loc t
  if n.digestAt ≤ loc.minutes t ∧ n.digestDay ≠ some (loc.day t) then
    let n := { n with digestDay := some (loc.day t) }
    let n := if n.digest = [] then n else n.deliver (digestMessage loc n.digest) fun c => c.digest
    { n with digest := [] }
  else n

/-- A call of the notifier at a time. -/
inductive Call
  | event (e : Event) (t : ℤ)
  | tick (t : ℤ)

def Call.time : Call → ℤ
  | event _ t => t
  | tick t => t

def call (loc : Locale) (n : Notifier) : Call → Notifier
  | .event e t => n.onEvent loc e t
  | .tick t => n.tick loc t

end Notifier

end Servitals
