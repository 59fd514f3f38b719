import Servitals.Json
import Servitals.Nodes

/-!
# Config as code

`hub/lib/confd.js`: the files of `conf.d`, read in name order.  A file holds settings and nodes (tags or a name for a
node's id or name); later files win, key by key, and a file with a mistake is skipped whole.  `withFile` of
`hub/server.js` is a node as the page sees it.

The file system is what it shows at one time, and `text` (the string a value is turned into, or the error of that) is a
parameter.
-/

namespace Servitals

namespace Confd

/-- What a function throws: `Invalid`, or another error. -/
inductive Thrown
  | invalid (message : JsString)
  | other (message : JsString)

def fail {α : Type} (place what : JsString) : Except Thrown α := .error (.invalid (place ++ js ": " ++ what))

/-! ### Settings -/

/-- A check of a value at a place. -/
abbrev Setting := Json → JsString → Except Thrown Json

def onlyKeys (m : List (JsString × Json)) (place : JsString) (allowed : List JsString) : Except Thrown Unit :=
  match m.find? fun e => !allowed.contains e.1 with
  | some e => fail place (js "unknown key \"" ++ e.1 ++ js "\"")
  | none => .ok ()

/-- `choices.join(", ")` -/
def commas (choices : List JsString) : JsString := (js ", ").intercalate choices

def oneOf (choices : List JsString) : Setting := fun v place =>
  match v with
  | .str s => if choices.contains s then .ok v else fail place (js "one of " ++ commas choices)
  | _ => fail place (js "one of " ++ commas choices)

def bool : Setting := fun v place =>
  match v with
  | .bool _ => .ok v
  | _ => fail place (js "true or false")

def range (lo hi : ℕ) : Setting := fun v place =>
  let what := js "a number from " ++ js (toString lo) ++ js " to " ++ js (toString hi)
  match v with
  | .num (some x) => if x < lo ∨ hi < x then fail place what else .ok v
  | _ => fail place what

/-- A string that passes a regular expression. -/
def matching (re : JsString → Bool) (what : JsString) : Setting := fun v place =>
  match v with
  | .str s => if re s then .ok v else fail place what
  | _ => fail place what

/-- Is the value a string of a kind? -/
def isStr (p : JsString → Bool) : Json → Bool
  | .str s => p s
  | _ => false

/-- A list of strings of a kind. -/
def strs (p : JsString → Bool) (what : JsString) : Setting := fun v place =>
  match v with
  | .arr xs => if xs.all (isStr p) then .ok v else fail place (js "a list of " ++ what)
  | _ => fail place (js "a list of " ++ what)

def listOf (choices : List JsString) (what : Option JsString) : Setting :=
  strs choices.contains (what.getD (commas choices))

def strings : Setting := strs (fun _ => true) (js "words")

/-- The members of an object, each checked by its key. -/
def members (fields : List (JsString × Setting)) (m : List (JsString × Json)) (place : JsString) :
    Except Thrown (List (JsString × Json)) := do
  onlyKeys m place (fields.map Prod.fst)
  m.mapM fun e => match fields.find? fun f => f.1 = e.1 with
    | some f => (f.2 e.2 (place ++ js "." ++ e.1)).map fun v => (e.1, v)
    | none => .ok e   -- no such member is left

def table (fields : List (JsString × Setting)) : Setting := fun v place =>
  match v with
  | .obj m => (members fields m place).map .obj
  | _ => fail place (js "an object")

def PANELS : List JsString :=
  [js "mem", js "cpu", js "temp", js "storage", js "network", js "docker", js "clocks", js "weather"]

/-- `NAME`: `/^[^\u0000-\u001f\u007f]{1,64}$/` -/
def isName (s : JsString) : Bool := s.length != 0 && s.length ≤ 64 && s.all fun u => 0x20 ≤ u && u != 0x7f

/-- `/^[a-z0-9-]{1,32}$/` -/
def isStyle (s : JsString) : Bool :=
  s.length != 0 && s.length ≤ 32 && s.all fun u => unitIn 'a' 'z' u || unitIn '0' '9' u || u == 0x2d

def units : List (JsString × Setting) := [
  (js "temp", oneOf [js "c", js "f"]),
  (js "size", oneOf [js "binary", js "decimal"]),
  (js "rate", oneOf [js "bytes", js "bits"]),
  (js "clock", oneOf [js "auto", js "24h", js "12h"])]

def fleet : List (JsString × Setting) := [
  (js "sort", oneOf [js "name", js "status", js "cpu", js "mem", js "temp", js "disk"]),
  (js "group", bool),
  (js "card", listOf [js "cpu", js "mem", js "temp", js "disk", js "containers"] none),
  (js "pinned", strings),
  (js "hidden", strings)]

def panels : List (JsString × Setting) := PANELS.map fun p => (p, bool)

def panelSize : List (JsString × Setting) := PANELS.map fun p => (p, oneOf [js "normal", js "wide", js "full"])

def SETTINGS : List (JsString × Setting) := [
  (js "title", matching isName (js "1-64 characters")),
  (js "refreshSec", range 5 900),
  (js "kioskSec", range 5 600),
  (js "kiosk", bool),
  (js "style", matching isStyle (js "a style name")),
  (js "mode", oneOf [js "system", js "light", js "dark"]),
  (js "density", oneOf [js "compact", js "comfortable", js "large"]),
  (js "units", table units),
  (js "fleet", table fleet),
  (js "panels", table panels),
  (js "panelSize", table panelSize),
  (js "panelOrder", listOf PANELS (some (js "panel names")))]

/-- The settings merged key by key. -/
def NESTED : List JsString := [js "units", js "fleet", js "panels", js "panelSize"]

/-! ### Nodes -/

/-- What a file says of a node. -/
structure NodeEntry where
  tags : Option (List JsString)
  name : Option JsString
  deriving DecidableEq

/-- `{ ...a, ...b }` -/
def NodeEntry.merge (a b : NodeEntry) : NodeEntry := ⟨b.tags.or a.tags, b.name.or a.name⟩

section
variable (text : Json → Except JsString JsString)

def checkTag (place : JsString) (t : Json) : Except Thrown JsString :=
  let bad (s : JsString) := fail place (js "tag \"" ++ s ++ js "\": lowercase letters, digits, dot, dash, underscore")
  match t with
  | .str s => if isTag s then .ok s else bad s
  | _ => match text t with
    | .ok s => bad s
    | .error e => .error (.other e)

def checkNode (key : JsString) (v : Json) : Except Thrown NodeEntry :=
  let place := js "nodes." ++ key
  if !isNodeId key && !isName key then fail (js "nodes") (js "a node id or name for each entry")
  else match v with
    | .obj m => do
      onlyKeys m place [js "tags", js "name"]
      let tags ← match Json.member m (js "tags") with
        | none => .ok none
        | some (.arr ts) => (ts.mapM (checkTag text (place ++ js ".tags"))).map fun ts => some ts.eraseDups
        | some _ => fail (place ++ js ".tags") (js "a list")
      let name ← match Json.member m (js "name") with
        | none => .ok none
        | some (.str s) => if isName (trim s) then .ok (some (trim s)) else fail (place ++ js ".name") (js "1-64 characters")
        | some _ => fail (place ++ js ".name") (js "1-64 characters")
      .ok ⟨tags, name⟩
    | _ => fail place (js "an object")

/-! ### Files -/

/-- What a file says. -/
structure Parsed where
  settings : List (JsString × Json)
  nodes : List (JsString × NodeEntry)

def checkSettings : Option Json → Except Thrown (List (JsString × Json))
  | none => .ok []
  | some (.obj m) => members SETTINGS m (js "settings")
  | some _ => fail (js "settings") (js "an object")

def checkNodes : Option Json → Except Thrown (List (JsString × NodeEntry))
  | none => .ok []
  | some (.obj m) => m.mapM fun e => (checkNode text e.1 e.2).map fun n => (e.1, n)
  | some _ => fail (js "nodes") (js "an object")

/-- `parseFile`; the value is what `JSON.parse` makes of the file's text. -/
def parseFile (value : Except JsString Json) : Except Thrown Parsed :=
  match value with
  | .error e => .error (.invalid (js "not valid JSON: " ++ e))
  | .ok (.obj m) => do
    onlyKeys m (js "file") [js "settings", js "nodes"]
    let settings ← checkSettings (Json.member m (js "settings"))
    let nodes ← checkNodes text (Json.member m (js "nodes"))
    -- a member set under this name becomes the prototype of the object
    .ok ⟨settings, nodes.filter fun e => e.1 ≠ js "__proto__"⟩
  | .ok _ => .error (.invalid (js "an object with \"settings\" and/or \"nodes\""))

/-- A file: its size, and what reading it gives, as `JSON.parse` takes it. -/
structure ConfdFile where
  size : ℕ
  value : Except JsString (Except JsString Json)

/-- A name in the directory. -/
inductive DirEntry
  | file (f : ConfdFile)
  | failed (code : JsString)
  | other

/-- The directory: its names in any order, or why it cannot be read. -/
abbrev Dir := Except JsString (List (JsString × DirEntry))

def MAX_BYTES : ℕ := 256 * 1024

/-- `jsonFiles` -/
def jsonFiles : Dir → List (JsString × Except JsString ConfdFile)
  | .error code => if code = js "ENOENT" then [] else [(js "(directory)", .error code)]
  | .ok names =>
    let json := names.filter fun e => (js ".json").isSuffixOf e.1 && e.1.head? != some 0x2e
    (json.insertionSort fun a b => a.1 ≤ b.1).filterMap fun e => match e.2 with
      | .file f => some (e.1, .ok f)
      | .failed code => some (e.1, .error code)
      | .other => none

/-- What the files set, the paths of the settings they set, and each file with its error. -/
structure Conf where
  settings : List (JsString × Json)
  nodes : OMap JsString NodeEntry
  managed : List JsString
  files : List (JsString × Option JsString)

/-- The members of an object; none of anything else. -/
def membersOf : Option Json → List (JsString × Json)
  | some (.obj m) => m
  | _ => []

/-- A setting over those of the files before. -/
def addSetting (out : List (JsString × Json)) (e : JsString × Json) : List (JsString × Json) :=
  Json.put out e.1 (if NESTED.contains e.1 then .obj (Json.spread (membersOf (Json.member out e.1)) (membersOf (some e.2)))
    else e.2)

def addNode (out : OMap JsString NodeEntry) (e : JsString × NodeEntry) : OMap JsString NodeEntry :=
  out.set e.1 (((out.get? e.1).getD ⟨none, none⟩).merge e.2)

/-- One file of `readConfd`. -/
def readFile (f : Except JsString ConfdFile) : Except Thrown Parsed :=
  match f with
  | .error e => .error (.other e)
  | .ok f =>
    if MAX_BYTES < f.size then .error (.invalid (js "larger than 256 KB"))
    else match f.value with
      | .error e => .error (.other e)
      | .ok value => parseFile text value

def addFile (out : Conf) (f : JsString × Except JsString ConfdFile) : Conf :=
  match readFile text f.2 with
  | .ok p =>
    { out with
      settings := p.settings.foldl addSetting out.settings
      nodes := p.nodes.foldl addNode out.nodes
      files := out.files ++ [(f.1, none)] }
  | .error (.invalid e) => { out with files := out.files ++ [(f.1, some e)] }
  | .error (.other e) => { out with files := out.files ++ [(f.1, some (js "could not read: " ++ e))] }

/-- The paths of the settings, sorted. -/
def managedOf (settings : List (JsString × Json)) : List JsString :=
  (settings.flatMap fun e =>
    if NESTED.contains e.1 then (membersOf (some e.2)).map fun n => e.1 ++ js "." ++ n.1 else [e.1]).insertionSort
      fun a b => a ≤ b

/-- `readConfd` -/
def readConfd (dir : Dir) : Conf :=
  let out := (jsonFiles dir).foldl (addFile text) ⟨[], .empty, [], []⟩
  { out with managed := managedOf out.settings }

end

/-! ### A node as the page sees it -/

/-- A node of the list, with what a file in `conf.d` sets of it. -/
structure Shown extends NodeStore.Listed where
  managed : List JsString

/-- What the files say of a node: the entries for its name and for its id, the id's wins. -/
def entryOf (all : OMap JsString NodeEntry) (n : NodeStore.Listed) : Option NodeEntry :=
  match all.get? n.name, all.get? n.id.1 with
  | none, none => none
  | byName, byId => some ((byName.getD ⟨none, none⟩).merge (byId.getD ⟨none, none⟩))

/-- `withFile` -/
def withFile (c : Conf) (n : NodeStore.Listed) : Shown :=
  match entryOf c.nodes n with
  | none => { n with managed := [] }
  | some f =>
    { n with
      name := f.name.getD n.name
      tags := f.tags.getD n.tags
      managed := (if f.name.isSome || c.nodes.contains n.name then [js "name"] else []) ++
        if f.tags.isSome then [js "tags"] else [] }

end Confd

end Servitals
