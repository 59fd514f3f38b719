import Servitals.Json
import Servitals.Nodes
import Servitals.Rules

/-!
# The rules file

`checkRules` and `buildRules` of `hub/lib/alertrules.js` on a file as `JSON.parse` gives it.  A rule of the file changes
a default rule or is one of a person's own.  A server is named by a value whose text is an id: a list of one id passes
the check too, and stays a list.
-/

namespace Servitals

/-! ### The file as the check leaves it -/

/-- What a scope or an override names: a server, by a value whose text is its id, or a tag. -/
inductive Who
  | node (v : Json)
  | tag (t : JsString)

/-- An override: another threshold for its target, or off there (`none`). -/
structure FileOverride where
  who : Who
  threshold : Option ℚ

/-- What the file changes of a default rule. -/
structure FileChange where
  threshold : Option ℚ
  forMin : Option ℤ
  clear : Option (Option ℚ)
  severity : Option Severity
  off : Bool
  overrides : List FileOverride

/-- A rule of one's own. -/
structure FileOwn where
  id : { s : JsString // isCustomId s = true }
  name : JsString
  metric : Json
  op : Op
  threshold : ℚ
  scope : Option Who
  sub : Option JsString
  forMin : ℤ
  clear : Option ℚ
  severity : Severity
  off : Bool
  overrides : List FileOverride

inductive FileRule
  | change (d : DefaultId) (c : FileChange)
  | own (r : FileOwn)

def FileRule.id : FileRule → JsString
  | .change d _ => d.str
  | .own r => r.id.1

def Op.str : Op → JsString
  | .ge => js ">="
  | .le => js "<="
  | .eq => js "=="

def Severity.str : Severity → JsString
  | .critical => js "critical"
  | .warning => js "warning"
  | .info => js "info"

def Metric.str : Metric → JsString
  | .offline => js "offline"
  | .diskUsed => js "disk.used"
  | .mem => js "mem"
  | .cpu => js "cpu"
  | .temp => js "temp"
  | .containerDown => js "container.down"
  | .failedUnits => js "failed_units"
  | .rebootRequired => js "reboot_required"
  | .securityUpdates => js "security_updates"

/-- The default rule with an id. -/
def DefaultId.rule : DefaultId → Rule
  | .offline => Servitals.rule .offline .offline 1 0 .critical none
  | .diskFull => Servitals.rule .diskFull .diskUsed 90 5 .warning (some 88)
  | .diskCritical => Servitals.rule .diskCritical .diskUsed 95 5 .critical (some 93)
  | .memory => Servitals.rule .memory .mem 90 10 .warning none
  | .cpu => Servitals.rule .cpu .cpu 95 15 .warning none
  | .temperature => Servitals.rule .temperature .temp 85 5 .warning none
  | .containerDown => Servitals.rule .containerDown .containerDown 1 2 .warning none
  | .failedUnits => Servitals.rule .failedUnits .failedUnits 1 5 .warning none
  | .rebootRequired => Servitals.rule .rebootRequired .rebootRequired 1 0 .info none
  | .securityUpdates => Servitals.rule .securityUpdates .securityUpdates 1 0 .info none

/-- The ids of the default rules, in their order. -/
def DefaultId.all : List DefaultId :=
  [.offline, .diskFull, .diskCritical, .memory, .cpu, .temperature, .containerDown, .failedUnits, .rebootRequired,
    .securityUpdates]

/-- `DEFAULT_RULES.find((d) => d.id === id)` -/
def defaultIdOf (id : JsString) : Option DefaultId := DefaultId.all.find? fun d => d.str == id

theorem DEFAULT_RULES_eq : DEFAULT_RULES = DefaultId.all.map DefaultId.rule := rfl

namespace RulesFile

/-! ### The checks of one value -/

mutual
/-- `String(v)` where it can be a server's id or a metric's name: of a string, a whole number, and a list of one such
value.  The text of any other value has a character that no id and no name has, or is too short for an id. -/
def asText : Json → Option JsString
  | .str s => some s
  | .num (some x) => if x.isInt ∧ 0 ≤ x ∧ x < 10 ^ 21 then some (js (toString x.num)) else none
  | .arr xs => onlyText xs
  | _ => none
def onlyText : List Json → Option JsString
  | [v] => asText v
  | _ => none
end

/-- `METRICS`: what a rule of one's own can watch, and whether it has disks or containers. -/
def METRICS : List (JsString × Bool) := [
  (js "disk.used", true), (js "mem", false), (js "cpu", false), (js "temp", false), (js "container.down", true),
  (js "failed_units", false), (js "reboot_required", false), (js "security_updates", false)]

/-- `METRICS[metric]` -/
def metricInfo (metric : Json) : Option Bool :=
  (asText metric).bind fun s => (METRICS.find? fun m => m.1 == s).map Prod.snd

def YESNO : List JsString := [js "reboot_required", js "container.down"]

def commas (choices : List JsString) : JsString := (js ", ").intercalate choices

def fail {α : Type} (here what : JsString) : Except JsString α := .error (here ++ js ": " ++ what)

/-- `known`: is the value the id of a server, one of `nodeIds` when there are some? -/
def known (nodeIds : Option (List JsString)) (v : Json) : Bool :=
  (asText v).any isNodeId && nodeIds.all fun ids => match v with
    | .str s => ids.contains s
    | _ => false

/-- `num` -/
def num : Json → Option ℚ
  | .num (some x) => if |x| ≤ 10 ^ 9 then some x else none
  | _ => none

def isControl (u : UInt16) : Bool := u < 0x20 || u == 0x7f

def checkName (here : JsString) (v : Option Json) : Except JsString JsString :=
  match v with
  | some (.str s) =>
    if trim s == [] || 60 < s.length || s.any isControl then fail here (js "name: 1 to 60 characters") else .ok (trim s)
  | _ => fail here (js "name: 1 to 60 characters")

def checkMetric (here : JsString) (v : Option Json) : Except JsString Json :=
  match v with
  | some m => if (metricInfo m).isSome then .ok m else fail here (js "metric: one of " ++ commas (METRICS.map Prod.fst))
  | none => fail here (js "metric: one of " ++ commas (METRICS.map Prod.fst))

def checkOp (here : JsString) (v : Option Json) : Except JsString Op :=
  match v with
  | some (.str s) => match [Op.ge, Op.le, Op.eq].find? fun o => o.str == s with
    | some o => .ok o
    | none => fail here (js "op: one of >= <= ==")
  | _ => fail here (js "op: one of >= <= ==")

def checkThreshold (here : JsString) (v : Option Json) : Except JsString ℚ :=
  match v.bind num with
  | some x => .ok x
  | none => fail here (js "threshold: a number")

/-- A server or a tag, when the object names one. -/
def checkTarget (nodeIds : Option (List JsString)) (here : JsString) (v : Json) : Except JsString (Option Who) :=
  match v.get (js "node"), v.get (js "tag") with
  | some n, _ => if known nodeIds n then .ok (some (.node n)) else fail here (js "no such server")
  | none, some (.str t) =>
    if isTag t then .ok (some (.tag t))
    else fail here (js "a tag is lowercase letters, digits, dot, dash, underscore")
  | none, some _ => fail here (js "a tag is lowercase letters, digits, dot, dash, underscore")
  | none, none => .ok none

def checkScope (nodeIds : Option (List JsString)) (here : JsString) (v : Option Json) : Except JsString (Option Who) :=
  match v with
  | none => .ok none
  | some s =>
    if !s.isObj || ((s.get (js "node")).isSome && (s.get (js "tag")).isSome) then
      fail here (js "scope: all servers, a server or a tag")
    else checkTarget nodeIds (here ++ js ": scope") s

def checkSub (here : JsString) (metric : Json) (v : Option Json) : Except JsString (Option JsString) :=
  match v with
  | none | some (.str []) => .ok none
  | some v =>
    if metricInfo metric != some true then fail here (js "sub: only for disks and containers")
    else match v with
      | .str s =>
        if 200 < s.length || s.any isControl then fail here (js "sub: a mount or container name") else .ok (some s)
      | _ => fail here (js "sub: a mount or container name")

/-- Whole minutes, a week at most. -/
def checkMinutes (here : JsString) (v : Json) : Except JsString ℤ :=
  match v with
  | .num (some x) =>
    if x.isInt ∧ 0 ≤ x ∧ x ≤ 10080 then .ok x.num else fail here (js "for: whole minutes, 0 to 10080")
  | _ => fail here (js "for: whole minutes, 0 to 10080")

def checkClear (here : JsString) (offline : Bool) (v : Json) : Except JsString (Option ℚ) :=
  match v with
  | .null => .ok none
  | v =>
    if offline then fail here (js "clear: a number")
    else match num v with
      | some x => .ok (some x)
      | none => fail here (js "clear: a number")

def checkSeverity (here : JsString) (v : Option Json) : Except JsString Severity :=
  match v with
  | some (.str s) => match [Severity.critical, .warning, .info].find? fun o => o.str == s with
    | some o => .ok o
    | none => fail here (js "severity: one of critical, warning, info")
  | _ => fail here (js "severity: one of critical, warning, info")

def checkOff (here : JsString) (v : Option Json) : Except JsString Bool :=
  match v with
  | none => .ok false
  | some (.bool b) => .ok b
  | some _ => fail here (js "off: true or false")

/-! ### Overrides -/

/-- What an override is for: two for the same are refused. -/
def keyOf : Who → JsString
  | .node v => js "server " ++ (asText v).getD []
  | .tag t => js "tag " ++ t

/-- `YESNO.includes(metric)` -/
def isYesno : Json → Bool
  | .str s => YESNO.contains s
  | _ => false

/-- An override turns its rule off, or gives it another threshold. -/
def checkLevel (oat : JsString) (offline : Bool) (metric o : Json) : Except JsString (Option ℚ) :=
  match o.get (js "off") with
  | some (.bool true) => .ok none
  | _ =>
    if offline then fail oat (js "offline can only be turned off")
    else if isYesno metric then fail oat (js "a true-or-false rule can only be turned off")
    else match (o.get (js "threshold")).bind num with
      | some x => .ok (some x)
      | none => fail oat (js "a threshold, or off")

/-- One override; `whos` are what the ones before are for. -/
def checkOverride (nodeIds : Option (List JsString)) (oat : JsString) (offline : Bool) (metric : Json)
    (whos : List JsString) (o : Json) : Except JsString FileOverride :=
  if !o.isObj || (o.get (js "node")).isSome == (o.get (js "tag")).isSome then fail oat (js "a server or a tag")
  else (checkTarget nodeIds oat o).bind fun target => match target with
    | none => fail oat (js "a server or a tag")   -- it names one
    | some who =>
      if whos.contains (keyOf who) then fail oat (keyOf who ++ js " is listed twice")
      else (checkLevel oat offline metric o).map fun threshold => ⟨who, threshold⟩

/-- The overrides from the `k`-th on. -/
def checkEach (nodeIds : Option (List JsString)) (here : JsString) (offline : Bool) (metric : Json) :
    ℕ → List JsString → List Json → Except JsString (List FileOverride)
  | _, _, [] => .ok []
  | k, whos, o :: os =>
    (checkOverride nodeIds (here ++ js ": override " ++ js (toString (k + 1))) offline metric whos o).bind fun x =>
      (checkEach nodeIds here offline metric (k + 1) (whos ++ [keyOf x.who]) os).map fun xs => x :: xs

def MAX_OVERRIDES : ℕ := 50

def checkOverrides (nodeIds : Option (List JsString)) (here : JsString) (offline : Bool) (metric : Json)
    (v : Option Json) : Except JsString (List FileOverride) :=
  match v with
  | none => .ok []
  | some (.arr os) =>
    if MAX_OVERRIDES < os.length then fail here (js "overrides: a list of at most 50")
    else checkEach nodeIds here offline metric 0 [] os
  | some _ => fail here (js "overrides: a list of at most 50")

/-! ### A rule -/

/-- Is the clear value on the far side of the threshold, where the alert would end as it fires? -/
def isFar (op : Op) (threshold clear : ℚ) : Bool :=
  match op with
  | .eq => true
  | .ge => decide (threshold < clear)
  | .le => decide (clear < threshold)

def checkNear (here : JsString) (op : Op) (threshold : ℚ) (clear : Option ℚ) : Except JsString Unit :=
  if clear.any (isFar op threshold) then
    fail here (js "clear: " ++ match op with
      | .eq => js "none for =="
      | .ge => js "at most the threshold"
      | .le => js "at least the threshold")
  else .ok ()

/-- A field that may be absent. -/
def optional {α : Type} (check : Json → Except JsString α) : Option Json → Except JsString (Option α)
  | none => .ok none
  | some v => (check v).map some

/-- A field that the offline rule does not have. -/
def notOffline {α : Type} (here what : JsString) (d : DefaultId) (check : Json → Except JsString α) (v : Json) :
    Except JsString α :=
  if d = .offline then fail here what else check v

/-- A rule of the file with the id of the default rule `d`. -/
def checkChange (nodeIds : Option (List JsString)) (here : JsString) (d : DefaultId) (r : Json) :
    Except JsString FileChange := do
  let threshold ← optional (notOffline here (js "offline has no threshold") d fun v => checkThreshold here (some v))
    (r.get (js "threshold"))
  let forMin ← optional (notOffline here (js "offline's time follows the server's heartbeat") d (checkMinutes here))
    (r.get (js "for"))
  let clear ← optional (checkClear here (d == .offline)) (r.get (js "clear"))
  let severity ← optional (fun v => checkSeverity here (some v)) (r.get (js "severity"))
  let off ← checkOff here (r.get (js "off"))
  let overrides ← checkOverrides nodeIds here (d == .offline) (.str d.rule.metric.str) (r.get (js "overrides"))
  checkNear here d.rule.op (threshold.getD d.rule.threshold) (clear.getD d.rule.clear)
  .ok ⟨threshold, forMin, clear, severity, off, overrides⟩

/-- A rule of one's own. -/
def checkOwn (nodeIds : Option (List JsString)) (here : JsString) (id : { s : JsString // isCustomId s = true })
    (r : Json) : Except JsString FileOwn := do
  let name ← checkName here (r.get (js "name"))
  let metric ← checkMetric here (r.get (js "metric"))
  let op ← checkOp here (r.get (js "op"))
  let threshold ← checkThreshold here (r.get (js "threshold"))
  let scope ← checkScope nodeIds here (r.get (js "scope"))
  let sub ← checkSub here metric (r.get (js "sub"))
  let forMin ← checkMinutes here ((r.get (js "for")).getD (.num (some 0)))
  let clear ← checkClear here false ((r.get (js "clear")).getD .null)
  let severity ← checkSeverity here (r.get (js "severity"))
  let off ← checkOff here (r.get (js "off"))
  let overrides ← checkOverrides nodeIds here false metric (r.get (js "overrides"))
  checkNear here op threshold clear
  .ok ⟨id, name, metric, op, threshold, scope, sub, forMin, clear, severity, off, overrides⟩

/-- How an error names a rule: by its name, or by its id. -/
def nameOf (id : JsString) (r : Json) : JsString :=
  match r.get (js "name") with
  | some (.str s) => if trim s != [] && (defaultIdOf id).isNone then (trim s).take 60 else id
  | _ => id

/-- The `i`-th rule; `seen` are the ids of those before. -/
def checkRule (nodeIds : Option (List JsString)) (i : ℕ) (seen : List JsString) (r : Json) : Except JsString FileRule :=
  match r.get (js "id") with
  | some (.str id) =>
    if seen.contains id then fail (nameOf id r) (js "listed twice")
    else match defaultIdOf id with
      | some d => (checkChange nodeIds (nameOf id r) d r).map (.change d)
      | none =>
        if h : isCustomId id = true then (checkOwn nodeIds (nameOf id r) ⟨id, h⟩ r).map .own
        else fail (nameOf id r)
          (id ++ js " is no default rule, and a rule of one's own is c_ and up to 16 letters or digits")
  | _ => .error (js "rule " ++ js (toString (i + 1)) ++ js ": needs an id")

/-- The rules from the `i`-th on. -/
def checkList (nodeIds : Option (List JsString)) : ℕ → List JsString → List Json → Except JsString (List FileRule)
  | _, _, [] => .ok []
  | i, seen, r :: rs =>
    (checkRule nodeIds i seen r).bind fun c =>
      (checkList nodeIds (i + 1) (seen ++ [c.id]) rs).map fun cs => c :: cs

def MAX_RULES : ℕ := 100

/-- `checkRules`; without `nodeIds` any server's id is taken. -/
def checkRules (nodeIds : Option (List JsString)) (input : Json) : Except JsString (List FileRule) :=
  match input.get (js "rules") with
  | some (.arr rs) => if MAX_RULES < rs.length then .error (js "rules: at most 100") else checkList nodeIds 0 [] rs
  | _ => .error (js "rules: a list")

/-! ### What passes -/

private theorem of_bind {ε α β : Type} {x : Except ε α} {f : α → Except ε β} {b : β} (h : x.bind f = .ok b) :
    ∃ a, x = .ok a ∧ f a = .ok b := by
  cases x with
  | error e => cases h
  | ok a => exact ⟨a, rfl, h⟩

private theorem of_map {ε α β : Type} {x : Except ε α} {f : α → β} {b : β} (h : x.map f = .ok b) :
    ∃ a, x = .ok a ∧ f a = b := by
  cases x with
  | error e => cases h
  | ok a => exact ⟨a, rfl, Except.ok.inj h⟩

/-- The checks of a change, one for each field. -/
structure ChangePasses (nodeIds : Option (List JsString)) (here : JsString) (d : DefaultId) (r : Json) (c : FileChange) :
    Prop where
  threshold : optional (notOffline here (js "offline has no threshold") d fun v => checkThreshold here (some v))
    (r.get (js "threshold")) = .ok c.threshold
  forMin : optional (notOffline here (js "offline's time follows the server's heartbeat") d (checkMinutes here))
    (r.get (js "for")) = .ok c.forMin
  clear : optional (checkClear here (d == .offline)) (r.get (js "clear")) = .ok c.clear
  severity : optional (fun v => checkSeverity here (some v)) (r.get (js "severity")) = .ok c.severity
  off : checkOff here (r.get (js "off")) = .ok c.off
  overrides : checkOverrides nodeIds here (d == .offline) (.str d.rule.metric.str) (r.get (js "overrides")) =
    .ok c.overrides
  near : checkNear here d.rule.op (c.threshold.getD d.rule.threshold) (c.clear.getD d.rule.clear) = .ok ()

/-- The checks of a rule of one's own. -/
structure OwnPasses (nodeIds : Option (List JsString)) (here : JsString) (r : Json) (c : FileOwn) : Prop where
  name : checkName here (r.get (js "name")) = .ok c.name
  metric : checkMetric here (r.get (js "metric")) = .ok c.metric
  op : checkOp here (r.get (js "op")) = .ok c.op
  threshold : checkThreshold here (r.get (js "threshold")) = .ok c.threshold
  scope : checkScope nodeIds here (r.get (js "scope")) = .ok c.scope
  sub : checkSub here c.metric (r.get (js "sub")) = .ok c.sub
  forMin : checkMinutes here ((r.get (js "for")).getD (.num (some 0))) = .ok c.forMin
  clear : checkClear here false ((r.get (js "clear")).getD .null) = .ok c.clear
  severity : checkSeverity here (r.get (js "severity")) = .ok c.severity
  off : checkOff here (r.get (js "off")) = .ok c.off
  overrides : checkOverrides nodeIds here false c.metric (r.get (js "overrides")) = .ok c.overrides
  near : checkNear here c.op c.threshold c.clear = .ok ()

variable {nodeIds : Option (List JsString)} {here : JsString} {r : Json}

private theorem checkChange_eq_ok {d : DefaultId} {c : FileChange} :
    checkChange nodeIds here d r = .ok c ↔ ChangePasses nodeIds here d r c := by
  constructor
  · intro h
    unfold checkChange at h
    obtain ⟨threshold, hthreshold, h⟩ := of_bind h
    obtain ⟨forMin, hforMin, h⟩ := of_bind h
    obtain ⟨clear, hclear, h⟩ := of_bind h
    obtain ⟨severity, hseverity, h⟩ := of_bind h
    obtain ⟨off, hoff, h⟩ := of_bind h
    obtain ⟨overrides, hoverrides, h⟩ := of_bind h
    obtain ⟨u, hnear, h⟩ := of_bind h
    cases h
    exact ⟨hthreshold, hforMin, hclear, hseverity, hoff, hoverrides, hnear⟩
  · intro h
    unfold checkChange
    rw [h.threshold, h.forMin, h.clear, h.severity, h.off, h.overrides]
    exact congrArg (fun x : Except JsString Unit => x.bind fun _ => .ok c) h.near

private theorem checkOwn_eq_ok {id : { s : JsString // isCustomId s = true }} {c : FileOwn} :
    checkOwn nodeIds here id r = .ok c ↔ c.id = id ∧ OwnPasses nodeIds here r c := by
  constructor
  · intro h
    unfold checkOwn at h
    obtain ⟨name, hname, h⟩ := of_bind h
    obtain ⟨metric, hmetric, h⟩ := of_bind h
    obtain ⟨op, hop, h⟩ := of_bind h
    obtain ⟨threshold, hthreshold, h⟩ := of_bind h
    obtain ⟨scope, hscope, h⟩ := of_bind h
    obtain ⟨sub, hsub, h⟩ := of_bind h
    obtain ⟨forMin, hforMin, h⟩ := of_bind h
    obtain ⟨clear, hclear, h⟩ := of_bind h
    obtain ⟨severity, hseverity, h⟩ := of_bind h
    obtain ⟨off, hoff, h⟩ := of_bind h
    obtain ⟨overrides, hoverrides, h⟩ := of_bind h
    obtain ⟨u, hnear, h⟩ := of_bind h
    cases h
    exact ⟨rfl, hname, hmetric, hop, hthreshold, hscope, hsub, hforMin, hclear, hseverity, hoff, hoverrides, hnear⟩
  · rintro ⟨rfl, h⟩
    unfold checkOwn
    rw [h.name, h.metric, h.op, h.threshold, h.scope, h.forMin, h.clear, h.severity, h.off]
    show (checkSub here c.metric (r.get (js "sub"))).bind _ = _
    rw [h.sub]
    show (checkOverrides nodeIds here false c.metric (r.get (js "overrides"))).bind _ = _
    rw [h.overrides]
    exact congrArg (fun x : Except JsString Unit => x.bind fun _ => .ok c) h.near

/-- The checks of a rule. -/
def RulePasses (nodeIds : Option (List JsString)) (r : Json) : FileRule → Prop
  | .change d c => r.get (js "id") = some (.str d.str) ∧ ChangePasses nodeIds (nameOf d.str r) d r c
  | .own c => r.get (js "id") = some (.str c.id.1) ∧ OwnPasses nodeIds (nameOf c.id.1 r) r c

theorem defaultIdOf_str (d : DefaultId) : defaultIdOf d.str = some d := by cases d <;> decide

private theorem str_of_defaultIdOf {id : JsString} {d : DefaultId} (h : defaultIdOf id = some d) : d.str = id := by
  simpa [defaultIdOf] using List.find?_some h

theorem defaultIdOf_custom (c : { s : JsString // isCustomId s = true }) : defaultIdOf c.1 = none := by
  have hcustom : ∀ d : DefaultId, isCustomId d.str = false := by
    intro d
    cases d <;> decide
  rw [defaultIdOf, List.find?_eq_none]
  intro d _ hd
  have h := c.2
  rw [← beq_iff_eq.1 hd, hcustom d] at h
  cases h

private theorem checkRule_eq_ok {i : ℕ} {seen : List JsString} {c : FileRule} :
    checkRule nodeIds i seen r = .ok c ↔ c.id ∉ seen ∧ RulePasses nodeIds r c := by
  constructor
  · intro h
    unfold checkRule at h
    split at h
    · rename_i id hid
      split at h
      · cases h
      · rename_i hseen
        have hseen : id ∉ seen := by simpa using hseen
        split at h
        · rename_i d hd
          obtain ⟨c', hc', rfl⟩ := of_map h
          obtain rfl := str_of_defaultIdOf hd
          exact ⟨hseen, hid, checkChange_eq_ok.1 hc'⟩
        · split at h
          · obtain ⟨c', hc', rfl⟩ := of_map h
            obtain ⟨hid', hpasses⟩ := checkOwn_eq_ok.1 hc'
            obtain rfl : c'.id.1 = id := by rw [hid']
            exact ⟨hseen, hid, hpasses⟩
          · cases h
    · cases h
  · rintro ⟨hseen, hpasses⟩
    unfold checkRule
    cases c with
    | change d c =>
      have hnot : seen.contains d.str = false := by simpa [FileRule.id] using hseen
      rw [hpasses.1]
      dsimp only
      rw [hnot, if_neg Bool.false_ne_true, defaultIdOf_str]
      dsimp only
      rw [checkChange_eq_ok.2 hpasses.2]
      rfl
    | own c =>
      have hnot : seen.contains c.id.1 = false := by simpa [FileRule.id] using hseen
      rw [hpasses.1]
      dsimp only
      rw [hnot, if_neg Bool.false_ne_true, defaultIdOf_custom]
      dsimp only
      rw [dif_pos c.id.2, checkOwn_eq_ok.2 ⟨rfl, hpasses.2⟩]
      rfl

private theorem checkList_eq_ok {i : ℕ} {seen : List JsString} {rs : List Json} {cs : List FileRule} :
    checkList nodeIds i seen rs = .ok cs ↔
      List.Forall₂ (RulePasses nodeIds) rs cs ∧ (cs.map FileRule.id).Nodup ∧ ∀ c ∈ cs, c.id ∉ seen := by
  induction rs generalizing i seen cs with
  | nil =>
    unfold checkList
    constructor
    · intro h
      cases h
      exact ⟨.nil, List.nodup_nil, fun c hc => absurd hc List.not_mem_nil⟩
    · rintro ⟨h, -⟩
      cases h
      rfl
  | cons r rs ih =>
    unfold checkList
    constructor
    · intro h
      obtain ⟨c, hc, h⟩ := of_bind h
      obtain ⟨cs', hcs, rfl⟩ := of_map h
      obtain ⟨hseen, hpasses⟩ := checkRule_eq_ok.1 hc
      obtain ⟨hall, hnodup, hnew⟩ := ih.1 hcs
      refine ⟨.cons hpasses hall, ?_, ?_⟩
      · rw [List.map_cons, List.nodup_cons]
        refine ⟨fun hmem => ?_, hnodup⟩
        obtain ⟨c', hc', heq⟩ := List.mem_map.1 hmem
        exact hnew c' hc' (heq ▸ List.mem_append_right _ (List.mem_singleton_self _))
      · rw [List.forall_mem_cons]
        exact ⟨hseen, fun c' hc' hmem => hnew c' hc' (List.mem_append_left _ hmem)⟩
    · rintro ⟨hall, hnodup, hnew⟩
      cases hall with
      | cons hpasses hall =>
        rename_i c cs'
        rw [List.map_cons, List.nodup_cons] at hnodup
        rw [List.forall_mem_cons] at hnew
        have hrest : ∀ c' ∈ cs', c'.id ∉ seen ++ [c.id] := by
          intro c' hc' hmem
          rcases List.mem_append.1 hmem with hmem | hmem
          · exact hnew.2 c' hc' hmem
          · exact hnodup.1 (List.mem_singleton.1 hmem ▸ List.mem_map_of_mem hc')
        rw [checkRule_eq_ok.2 ⟨hnew.1, hpasses⟩]
        show (checkList nodeIds (i + 1) (seen ++ [c.id]) rs).map _ = _
        rw [ih.2 ⟨hall, hnodup.2, hrest⟩]
        rfl

/-- An accepted file: at most 100 rules, each of which passes its checks, with different ids. -/
theorem checkRules_eq_ok {input : Json} {f : List FileRule} :
    checkRules nodeIds input = .ok f ↔ ∃ rs, input.get (js "rules") = some (.arr rs) ∧ rs.length ≤ MAX_RULES ∧
      List.Forall₂ (RulePasses nodeIds) rs f ∧ (f.map FileRule.id).Nodup := by
  constructor
  · intro h
    unfold checkRules at h
    split at h
    · rename_i rs hrs
      split at h
      · cases h
      · rename_i hlen
        obtain ⟨hall, hnodup, -⟩ := checkList_eq_ok.1 h
        exact ⟨rs, hrs, not_lt.1 hlen, hall, hnodup⟩
    · cases h
  · rintro ⟨rs, hrs, hlen, hall, hnodup⟩
    unfold checkRules
    rw [hrs]
    dsimp only
    rw [if_neg (not_lt.2 hlen)]
    exact checkList_eq_ok.2 ⟨hall, hnodup, fun c _ => List.not_mem_nil⟩

/-- A rule of an accepted file passed its checks. -/
theorem passes_of_mem {input : Json} {f : List FileRule} (h : checkRules nodeIds input = .ok f) {c : FileRule}
    (hc : c ∈ f) : ∃ v, RulePasses nodeIds v c := by
  obtain ⟨rs, -, -, hall, -⟩ := checkRules_eq_ok.1 h
  clear h
  induction hall with
  | nil => cases hc
  | cons hv _ ih =>
    rcases List.mem_cons.1 hc with rfl | hc
    · exact ⟨_, hv⟩
    · exact ih hc

end RulesFile

/-! ### The engine's rules -/

/-- A rule of the engine as the file has it: `metric` and the servers are the file's values. -/
structure BuiltRule where
  id : RuleId
  name : Option JsString
  metric : Json
  op : Op
  threshold : ℚ
  forTime : ℤ
  clear : Option ℚ
  severity : Severity
  repeatTime : ℤ
  off : Bool
  scope : Option Who
  sub : Option JsString
  overrides : List FileOverride

/-- `{ ...d }` -/
def DefaultId.built (d : DefaultId) : BuiltRule where
  id := .default d
  name := none
  metric := .str d.rule.metric.str
  op := d.rule.op
  threshold := d.rule.threshold
  forTime := d.rule.forTime
  clear := d.rule.clear
  severity := d.rule.severity
  repeatTime := d.rule.repeatTime
  off := false
  scope := none
  sub := none
  overrides := []

/-- `{ ...d, ...edit(c) }` -/
def FileChange.built (d : DefaultId) (c : FileChange) : BuiltRule :=
  { d.built with
    threshold := c.threshold.getD d.rule.threshold
    forTime := (c.forMin.map (· * MIN)).getD d.rule.forTime
    clear := c.clear.getD d.rule.clear
    severity := c.severity.getD d.rule.severity
    off := c.off
    overrides := c.overrides }

def FileOwn.built (r : FileOwn) : BuiltRule where
  id := .own r.id
  name := some r.name
  metric := r.metric
  op := r.op
  threshold := r.threshold
  forTime := r.forMin * MIN
  clear := r.clear
  severity := r.severity
  repeatTime := DAY
  off := r.off
  scope := r.scope
  sub := r.sub
  overrides := r.overrides

namespace RulesFile

/-- `list.find((r) => r.id === d.id)` -/
def changeOf (saved : List FileRule) (d : DefaultId) : Option FileChange :=
  saved.findSome? fun r => match r with
    | .change d' c => if d' = d then some c else none
    | .own _ => none

def ownOf : FileRule → Option FileOwn
  | .change _ _ => none
  | .own r => some r

/-- `buildRules`: every default rule, changed where the file says, then the person's own. -/
def buildRules (saved : List FileRule) : List BuiltRule :=
  (DefaultId.all.map fun d => ((changeOf saved d).map (FileChange.built d)).getD d.built) ++
    (saved.filterMap ownOf).map FileOwn.built

end RulesFile

/-- Does a scope or an override name the node? -/
def Who.covers (node : Node) : Who → Bool
  | .node (.str s) => s == node.id.1
  | .node _ => false
  | .tag t => node.tags.contains t

/-- `o.node === node.id` -/
def Who.isNode (node : Node) : Who → Bool
  | .node (.str s) => s == node.id.1
  | _ => false

/-- `o.tag && tags.includes(o.tag)` -/
def Who.isTag (node : Node) : Who → Bool
  | .tag t => node.tags.contains t
  | _ => false

namespace BuiltRule

/-- `forNode` -/
def forNode (r : BuiltRule) (node : Node) : Option BuiltRule :=
  if r.off then none
  else if r.scope.any fun s => !s.covers node then none
  else match (r.overrides.find? fun o => o.who.isNode node).or (r.overrides.find? fun o => o.who.isTag node) with
    | none => some r
    | some o => o.threshold.map fun th => { r with threshold := th, clear := r.clear.map (· + (th - r.threshold)) }

/-- `value !== null && OPS[r.op](value, r.threshold)`: the firing condition. -/
def holds (r : BuiltRule) (value : Option ℚ) : Bool := value.any fun v => r.op.holds v r.threshold

/-- The resolve condition of a firing alert: its sub is gone, or the value is past the clear level (the threshold
without one). -/
def isOver (r : BuiltRule) (value : Option ℚ) : Bool :=
  match value, r.clear with
  | none, _ => true
  | some v, some c => !r.op.holds v c
  | some v, none => !r.op.holds v r.threshold

end BuiltRule

end Servitals
