import Servitals.Json
import Servitals.Lib.OMap

/-!
# The settings of the alert channels

`checkChannels` of `hub/lib/notify.js`: what a person posts, checked against what is saved.  A secret that comes back as
`********` keeps its saved value.  `httpUrl` (the URL parser of Node) is a parameter.
-/

namespace Servitals

namespace Channels

/-! ### Character classes -/

def isUpper (u : UInt16) : Bool := unitIn 'A' 'Z' u
def isLower (u : UInt16) : Bool := unitIn 'a' 'z' u
def isDigit (u : UInt16) : Bool := unitIn '0' '9' u
def isAlnum (u : UInt16) : Bool := isUpper u || isLower u || isDigit u

/-- One of the characters of a literal. -/
def oneOf (s : String) (u : UInt16) : Bool := (js s).contains u

/-- From `lo` to `hi` characters of a class: `/^[…]{lo,hi}$/`. -/
def run (p : UInt16 → Bool) (lo hi : ℕ) (s : JsString) : Bool := lo ≤ s.length && s.length ≤ hi && s.all p

/-- `/[\u0000-\u001f\u007f]/` -/
def hasControl (s : JsString) : Bool := s.any fun u => u < 0x20 || u == 0x7f

/-- The two parts around the last code unit of a kind. -/
def splitLast (sep : UInt16) (s : JsString) : Option (JsString × JsString) :=
  let tail := (s.reverse.takeWhile fun u => u != sep).reverse
  if tail.length < s.length then some (s.take (s.length - tail.length - 1), tail) else none

/-- `smtp.ADDRESS`: `/^[A-Za-z0-9._%+-]{1,64}@[A-Za-z0-9.-]{1,253}\.[A-Za-z]{2,63}$/` -/
def isAddress (s : JsString) : Bool :=
  match split 0x40 s with
  | [user, domain] =>
    run (fun u => isAlnum u || oneOf "._%+-" u) 1 64 user &&
      (splitLast 0x2e domain).any fun d =>
        run (fun u => isAlnum u || oneOf ".-" u) 1 253 d.1 && run (fun u => isUpper u || isLower u) 2 63 d.2
  | _ => false

/-- `/^[A-Za-z0-9._%+@-]+(\s*,\s*[A-Za-z0-9._%+@-]+){0,9}$/` -/
def isAddressList (s : JsString) : Bool :=
  let parts := split 0x2c s
  parts.length ≤ 10 && trim s == s &&
    parts.all fun p => trim p != [] && (trim p).all fun u => isAlnum u || oneOf "._%+@-" u

/-- `/^[0-9]{1,20}:[A-Za-z0-9_-]{20,100}$/` -/
def isBotToken (s : JsString) : Bool :=
  match split 0x3a s with
  | [bot, key] => run isDigit 1 20 bot && run (fun u => isAlnum u || oneOf "_-" u) 20 100 key
  | _ => false

/-- `/^(-?[0-9]{1,20}|@[A-Za-z0-9_]{5,32})$/` -/
def isChat (s : JsString) : Bool :=
  match s with
  | 0x2d :: s => run isDigit 1 20 s
  | 0x40 :: s => run (fun u => isAlnum u || oneOf "_" u) 5 32 s
  | s => run isDigit 1 20 s

/-- `/^![A-Za-z0-9._=-]{1,255}:[A-Za-z0-9.-]{1,253}(:[0-9]{1,5})?$/` -/
def isRoom (s : JsString) : Bool :=
  match split 0x3a s with
  | (0x21 :: room) :: server :: port =>
    run (fun u => isAlnum u || oneOf "._=-" u) 1 255 room && run (fun u => isAlnum u || oneOf ".-" u) 1 253 server &&
      (port.isEmpty || (port.length == 1 && port.all (run isDigit 1 5)))
  | _ => false

/-- `/^[A-Za-z0-9.-]{1,253}$|^\[?[0-9a-fA-F:.]{2,45}\]?$/` -/
def isMailHost (s : JsString) : Bool :=
  let open_ := if s.head? = some 0x5b then s.tail else s
  let inner := if open_.getLast? = some 0x5d then open_.dropLast else open_
  run (fun u => isAlnum u || oneOf ".-" u) 1 253 s ||
    run (fun u => isDigit u || unitIn 'a' 'f' u || unitIn 'A' 'F' u || oneOf ":." u) 2 45 inner

/-- `ENVREF`: `/^\$SERVITALS_NOTIFY_[A-Z0-9_]+$/` -/
def isEnvRef (s : JsString) : Bool :=
  let name := js "$SERVITALS_NOTIFY_"
  name.isPrefixOf s && s.length != name.length && (s.drop name.length).all fun u => isUpper u || isDigit u || u == 0x5f

/-- `TIME`: `/^([01]\d|2[0-3]):[0-5]\d$/` -/
def isTime (s : JsString) : Bool :=
  match s with
  | [a, b, c, d, e] =>
    (((a == 0x30 || a == 0x31) && isDigit b) || (a == 0x32 && unitIn '0' '3' b)) && c == 0x3a && unitIn '0' '5' d && isDigit e
  | _ => false

/-! ### The types of channels -/

/-- A setting of a channel. -/
structure Field where
  key : JsString
  secret : Bool := false
  optional : Bool := false
  /-- Where messages go: a URL. -/
  url : Bool := false
  /-- Where messages go, as a host, a port or how they are secured. -/
  dest : Bool := false
  header : Bool := false
  re : Option (JsString → Bool) := none
  choices : Option (List JsString) := none
  list : Option (JsString → Bool) := none

structure Adapter where
  type : JsString
  fields : List Field
  /-- What cannot work, or nothing. -/
  check : Option (OMap JsString JsString → Option JsString) := none

/-- `SECRET` -/
def SECRET : JsString := js "********"

def SEV : List JsString := [js "critical", js "warning", js "info"]

/-- `c.k || ""` -/
def setting (c : OMap JsString JsString) (k : String) : JsString := (c.get? (js k)).getD []

/-- `check` of the email channel. -/
def checkEmail (c : OMap JsString JsString) : Option JsString :=
  let local_ := [js "localhost", js "127.0.0.1", js "::1", js "[::1", js "::1]", js "[::1]"].contains (setting c "host")
  if setting c "login" ≠ [] ∧ setting c "pass" = [] then some (js "pass: needed with a login")
  else if setting c "security" = js "none" ∧ (!local_ ∨ setting c "login" ≠ []) then
    some (js "security: none only to a mail relay on this host, without a login")
  else none

def isPushoverKey : JsString → Bool := run isAlnum 30 30

def ADAPTERS : List Adapter := [
  { type := js "ntfy", fields := [
    { key := js "server", optional := true, url := true },
    { key := js "topic", re := some (run (fun u => isAlnum u || oneOf "_-" u) 1 64) },
    { key := js "token", optional := true, secret := true, header := true }] },
  { type := js "webhook", fields := [
    { key := js "url", url := true, secret := true },
    { key := js "secret", optional := true, secret := true }] },
  { type := js "gotify", fields := [
    { key := js "server", url := true },
    { key := js "token", secret := true, header := true }] },
  { type := js "telegram", fields := [
    { key := js "token", secret := true, re := some isBotToken },
    { key := js "chat", re := some isChat },
    { key := js "server", optional := true, url := true }] },
  { type := js "discord", fields := [{ key := js "url", url := true, secret := true }] },
  { type := js "slack", fields := [{ key := js "url", url := true, secret := true }] },
  { type := js "teams", fields := [{ key := js "url", url := true, secret := true }] },
  { type := js "pushover", fields := [
    { key := js "token", secret := true, re := some isPushoverKey },
    { key := js "user", secret := true, re := some isPushoverKey },
    { key := js "server", optional := true, url := true }] },
  { type := js "email", fields := [
    { key := js "host", dest := true, re := some isMailHost },
    { key := js "port", dest := true, re := some (run isDigit 1 5) },
    { key := js "security", dest := true, choices := some [js "starttls", js "tls", js "none"] },
    { key := js "login", optional := true },
    { key := js "pass", optional := true, secret := true },
    { key := js "from", re := some isAddress },
    { key := js "to", re := some isAddressList, list := some isAddress }], check := some checkEmail },
  { type := js "apprise", fields := [
    { key := js "urls", secret := true },
    { key := js "api", optional := true, url := true }] },
  { type := js "webpush", fields := [] },
  { type := js "matrix", fields := [
    { key := js "server", url := true },
    { key := js "room", re := some isRoom },
    { key := js "token", secret := true, header := true }] }]

/-! ### What is saved -/

/-- A saved channel; its type is the value that was posted. -/
structure SavedChannel where
  id : JsString
  type : Json
  name : JsString
  min : JsString
  on : Bool
  digest : Bool
  config : OMap JsString JsString

structure SavedConfig where
  channels : List SavedChannel
  quiet : Option (Json × Json)
  digestAt : Json

/-! ### The check -/

/-- The string that names a property or is tested by a regular expression: a string, or a list of one. -/
def asText : Json → Option JsString
  | .str s => some s
  | .arr [x] => asText x
  | _ => none

/-- `x === y`, of values read from JSON: lists and objects are never the same. -/
def same : Json → Json → Bool
  | .null, .null => true
  | .bool a, .bool b => a == b
  | .num a, .num b => a == b
  | .str a, .str b => a == b
  | _, _ => false

/-- `v || ""` -/
def orEmpty (v : Option Json) : Json :=
  match v with
  | none | some .null | some (.bool false) => .str []
  | some (.num (some x)) => if x = 0 then .str [] else .num (some x)
  | some v => v

/-- The label and a text. -/
def complaint (label : JsString) (text : JsString) : JsString := label ++ js ": " ++ text

section
variable (httpUrl : JsString → Bool)

/-- `fieldError`; nothing for `""`. -/
def fieldError (f : Field) (v : JsString) : Option JsString :=
  if f.choices.any fun c => !c.contains v then
    some (js "one of " ++ (js ", ").intercalate (f.choices.getD []))
  else if f.list.any fun p => !(split 0x2c v).all fun x => p (trim x) then some (js "not valid")
  else if f.url && !httpUrl v then some (js "an http or https URL")
  else if f.re.any fun p => !p v then some (js "not valid")
  else if f.header && !run (fun u => 0x20 ≤ u && u ≤ 0x7e) 1 v.length v then some (js "printable ASCII only")
  else none

/-- Does an address of the channel differ from the saved one? -/
def moved (fields : List Field) (cfg : Json) (was : SavedChannel) : Bool :=
  fields.any fun f => (f.url || f.dest) && !f.secret &&
    !same (orEmpty (cfg.get f.key)) (orEmpty ((was.config.get? f.key).map .str))

/-- The value that a masked secret keeps. -/
def kept (fields : List Field) (cfg : Json) (was : Option SavedChannel) (k : JsString) : Option JsString :=
  was.bind fun was => if moved fields cfg was then none else was.config.get? k

/-- Is the field a secret that comes back masked? -/
def isMasked (cfg : Json) (f : Field) : Bool := f.secret && (cfg.get f.key).any fun v => same v (.str SECRET)

/-- One field: what is stored of it, if anything. -/
def checkField (fields : List Field) (cfg : Json) (was : Option SavedChannel) (label : JsString) (f : Field) :
    Except JsString (Option JsString) :=
  let wrong (text : JsString) : Except JsString (Option JsString) := .error (complaint label (complaint f.key text))
  if isMasked cfg f && (kept fields cfg was f.key).isNone then wrong (js "type it again")
  else
    let v := if isMasked cfg f then (kept fields cfg was f.key).map .str else cfg.get f.key
    match v with
    | none | some (.str []) => if f.optional then .ok none else wrong (js "needed")
    | some (.str v) =>
      if 2048 < v.length || hasControl v then wrong (js "text up to 2048 characters")
      else if v.head? = some 0x24 ∧ !isEnvRef v then
        wrong (js "only $SERVITALS_NOTIFY_ names are read from the environment")
      else if isEnvRef v then .ok (some v)
      else match fieldError httpUrl f v with
        | some bad => wrong bad
        | none => .ok (some v)
    | some _ => wrong (js "text up to 2048 characters")

/-- The fields of a channel, in order; `config` is what is stored so far. -/
def checkFields (all : List Field) (cfg : Json) (was : Option SavedChannel) (label : JsString) :
    List Field → OMap JsString JsString → Except JsString (OMap JsString JsString)
  | [], config => .ok config
  | f :: fs, config => do
    let v ← checkField httpUrl all cfg was label f
    checkFields all cfg was label fs (v.elim config (config.set f.key))

/-- `/^ch_[a-z0-9]{1,16}$/` -/
def isChannelId (s : JsString) : Bool :=
  (js "ch_").isPrefixOf s && run (fun u => isLower u || isDigit u) 1 16 (s.drop 3)

/-- How a channel is called in errors: by its name, or its place. -/
def labelOf (ch : Json) (i : ℕ) : JsString :=
  match ch.get (js "name") with
  | some (.str name) => if trim name = [] then js "channel " ++ js (toString (i + 1)) else (trim name).take 60
  | _ => js "channel " ++ js (toString (i + 1))

def isString : Option Json → Bool
  | some (.str _) => true
  | _ => false

/-- The settings that are posted of a channel. -/
def configOf (ch : Json) : Json := ((ch.get (js "config")).filter Json.isObj).getD (.obj [])

/-- The saved channel with the id and the type. -/
def savedAs (old : SavedConfig) (id : JsString) (type : Json) : Option SavedChannel :=
  old.channels.find? fun x => x.id == id && same x.type type

/-- The adapter of a type. -/
def adapterOf (type : Option Json) : Option Adapter :=
  (type.bind asText).bind fun t => ADAPTERS.find? fun ad => ad.type == t

/-- What every object has, `ADAPTERS` too: the members of `Object.prototype`. -/
def INHERITED : List JsString :=
  [js "constructor", js "__defineGetter__", js "__defineSetter__", js "hasOwnProperty", js "__lookupGetter__",
    js "__lookupSetter__", js "isPrototypeOf", js "propertyIsEnumerable", js "toString", js "valueOf", js "__proto__",
    js "toLocaleString"]

/-- What a channel is refused with whose type names such a member: what else is wrong, or the `TypeError` of a member
that has no fields. -/
def inheritedWrong (ch : Json) (label : JsString) : JsString :=
  let named := match ch.get (js "name") with
    | some (.str name) => trim name != [] && name.length ≤ 60 && !hasControl name
    | _ => false
  let ranked := match ch.get (js "min") with
    | some (.str min) => SEV.contains min
    | _ => false
  if !named then complaint label (js "name: 1 to 60 characters")
  else if !ranked then complaint label (js "min: one of " ++ (js ", ").intercalate SEV)
  else match ch.get (js "on"), ch.get (js "digest") with
    | some (.bool _), none | some (.bool _), some (.bool _) => js "Cannot convert undefined or null to object"
    | some (.bool _), some _ => complaint label (js "digest: true or false")
    | _, _ => complaint label (js "on: true or false")

/-- What is wrong with a channel besides its settings: the label and the text. -/
def checkHead (ch : Json) (label : JsString) (ids : List JsString) : Except JsString (JsString × Adapter × JsString) :=
  match ch.get (js "id") with
  | some (.str id) =>
    if !isChannelId id then .error (complaint label (js "id: ch_ and up to 16 letters or digits"))
    else if ids.contains id then .error (complaint label (js "listed twice"))
    else match adapterOf (ch.get (js "type")) with
      | none => .error (
        if ((ch.get (js "type")).bind asText).any INHERITED.contains then inheritedWrong ch label
        else complaint label (js "type: one of " ++ (js ", ").intercalate (ADAPTERS.map Adapter.type)))
      | some ad => match ch.get (js "name") with
        | some (.str name) =>
          if trim name = [] ∨ 60 < name.length ∨ hasControl name then
            .error (complaint label (js "name: 1 to 60 characters"))
          else .ok (id, ad, name)
        | _ => .error (complaint label (js "name: 1 to 60 characters"))
  | _ => .error (complaint label (js "id: ch_ and up to 16 letters or digits"))

/-- The settings of a channel, and what cannot work of them; a setting read from the environment is not known yet. -/
def checkSettings (ad : Adapter) (cfg : Json) (was : Option SavedChannel) (label : JsString) :
    Except JsString (OMap JsString JsString) := do
  let config ← checkFields httpUrl ad.fields cfg was label ad.fields .empty
  match (ad.check.filter fun _ => !config.values.any isEnvRef).bind fun check => check config with
  | some wrong => .error (complaint label wrong)
  | none => .ok config

/-- One channel; `ids` are those of the channels before it. -/
def checkChannel (old : SavedConfig) (ch : Json) (i : ℕ) (ids : List JsString) : Except JsString SavedChannel :=
  if !ch.isObj then .error (complaint (js "channel " ++ js (toString (i + 1))) (js "not a channel"))
  else do
    let label := labelOf ch i
    let (id, ad, name) ← checkHead ch label ids
    let type := (ch.get (js "type")).getD .null
    match ch.get (js "min") with
    | some (.str min) =>
      if !SEV.contains min then .error (complaint label (js "min: one of " ++ (js ", ").intercalate SEV))
      else match ch.get (js "on"), ch.get (js "digest") with
        | some (.bool on), none | some (.bool on), some (.bool _) => do
          let config ← checkSettings httpUrl ad (configOf ch) (savedAs old id type) label
          return ⟨id, type, trim name, min, on, !((ch.get (js "digest")).any fun d => same d (.bool false)), config⟩
        | some (.bool _), some _ => .error (complaint label (js "digest: true or false"))
        | _, _ => .error (complaint label (js "on: true or false"))
    | _ => .error (complaint label (js "min: one of " ++ (js ", ").intercalate SEV))

def checkEach (old : SavedConfig) : List Json → ℕ → List JsString → Except JsString (List SavedChannel)
  | [], _, _ => .ok []
  | ch :: chs, i, ids => do
    let c ← checkChannel httpUrl old ch i ids
    let cs ← checkEach old chs (i + 1) (ids ++ [c.id])
    return c :: cs

/-- `TIME.test(v)` -/
def isTimeValue (v : Option Json) : Bool := (v.bind asText).any isTime

def checkQuiet (v : Option Json) : Except JsString (Option (Json × Json)) :=
  match v with
  | none | some .null => .ok none
  | some q =>
    if !q.isObj || !isTimeValue (q.get (js "from")) || !isTimeValue (q.get (js "to")) ||
        same ((q.get (js "from")).getD .null) ((q.get (js "to")).getD .null) then
      .error (js "quiet hours: from and to as HH:MM, not the same")
    else .ok (some ((q.get (js "from")).getD .null, (q.get (js "to")).getD .null))

/-- `checkChannels`: the clean config, or what is wrong. -/
def checkChannels (input : Json) (old : SavedConfig) : Except JsString SavedConfig :=
  match input.get (js "channels") with
  | some (.arr chs) =>
    if 20 < chs.length then .error (js "channels: at most 20")
    else do
      let channels ← checkEach httpUrl old chs 0 []
      let quiet ← checkQuiet (input.get (js "quiet"))
      let digestAt := (input.get (js "digestAt")).getD (.str (js "07:00"))
      if !isTimeValue (some digestAt) then .error (js "digest: a time as HH:MM")
      else .ok ⟨channels, quiet, digestAt⟩
  | _ => .error (js "channels: a list")

end

end Channels

end Servitals
