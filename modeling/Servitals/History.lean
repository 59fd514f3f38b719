import Servitals.JsNumber
import Servitals.Lib.OMap
import Servitals.Lib.Ring

/-!
# History

`hub/lib/history.js`: each series of a node is a ring file of points, 24 hours of minutes, 7 days of ten minutes and
90 days of hours; a container's series keeps the averages of its minutes only.  The minute in progress is in memory
until a value of a later minute closes it or a flush writes it, and the points of the longer tiers are computed from
the minutes in the file each time a minute is written.

Values are exact numbers; a file keeps a number as a 32-bit float (`f32`), and `digest` is the hash that names the file
of a series whose name a file system cannot take.  The clock counts milliseconds since 1970.  A directory holds the
files this module made, so the series that `namesOf` keeps in memory are those of the directory; `added` is a history
variable, every value given to the history.
-/

namespace Servitals

/-- A tier of points: a minute, ten minutes or an hour each. -/
inductive Tier
  | minute | tenMinutes | hour
  deriving DecidableEq

namespace Tier

/-- Minutes in a point. -/
def step : Tier → ℤ
  | minute => 1
  | tenMinutes => 10
  | hour => 60

/-- Points in the ring. -/
def len : Tier → ℤ
  | minute => 1440
  | tenMinutes => 1008
  | hour => 2160

theorem step_pos (t : Tier) : 0 < t.step := by cases t <;> decide

theorem len_pos (t : Tier) : 0 < t.len := by cases t <;> decide

/-- The index of a minute's bucket. -/
def index (t : Tier) (minute : ℤ) : ℤ := minute / t.step

end Tier

/-- `RANGES` -/
inductive Range
  | h1 | h24 | d7 | d30 | d90
  deriving DecidableEq

def Range.tier : Range → Tier
  | h1 | h24 => .minute
  | d7 => .tenMinutes
  | d30 | d90 => .hour

def Range.count : Range → ℕ
  | h1 => 60
  | h24 => 1440
  | d7 => 1008
  | d30 => 720
  | d90 => 2160

/-- A point: average, lowest and highest value. -/
structure Point where
  avg : ℚ
  lo : ℚ
  hi : ℚ
  deriving DecidableEq

/-- The shape of a series' file: a container's has one tier of averages. -/
inductive Shape
  | container | full
  deriving DecidableEq

namespace Shape

/-- A point as the shape has it. -/
def point : Shape → Point → Point
  | container, p => ⟨p.avg, p.avg, p.avg⟩
  | full, p => p

/-- The tiers that are computed from the minutes. -/
def rolled : Shape → List Tier
  | container => []
  | full => [.tenMinutes, .hour]

def keeps (s : Shape) (t : Tier) : Bool := t = .minute || s.rolled.contains t

end Shape

/-- `shapeOf` -/
def shapeOf (name : JsString) : Shape := if js "ctr." <+: name then .container else .full

/-! ### File names -/

def isHigh (u : UInt16) : Bool := 0xd800 ≤ u && u ≤ 0xdbff

def isLow (u : UInt16) : Bool := 0xdc00 ≤ u && u ≤ 0xdfff

/-- The code points of a string, or none for a broken character (`LONE`). -/
def codePoints : JsString → Option (List ℕ)
  | [] => some []
  | u :: s =>
    if isHigh u then match s with
      | v :: s =>
        if isLow v then (codePoints s).map ((0x10000 + (u.toNat - 0xd800) * 0x400 + (v.toNat - 0xdc00)) :: ·) else none
      | [] => none
    else if isLow u then none
    else (codePoints s).map (u.toNat :: ·)

/-- The UTF-8 bytes of a code point. -/
def utf8 (c : ℕ) : List ℕ :=
  if c < 0x80 then [c]
  else if c < 0x800 then [0xc0 + c / 0x40, 0x80 + c % 0x40]
  else if c < 0x10000 then [0xe0 + c / 0x1000, 0x80 + c / 0x40 % 0x40, 0x80 + c % 0x40]
  else [0xf0 + c / 0x40000, 0x80 + c / 0x1000 % 0x40, 0x80 + c / 0x40 % 0x40, 0x80 + c % 0x40]

/-- What `encodeURIComponent` leaves, but the full stop. -/
def isUnreserved (c : ℕ) : Bool :=
  c < 0x80 && (unitIn 'A' 'Z' (.ofNat c) || unitIn 'a' 'z' (.ofNat c) || unitIn '0' '9' (.ofNat c)
    || c == 0x27 || (js "-_!~*()").contains (.ofNat c))

/-- The upper-case hexadecimal digit of a number below 16. -/
def upperHex (n : ℕ) : UInt16 := .ofNat (if n < 10 then 0x30 + n else 0x37 + n)

/-- A code point percent-encoded. -/
def encodePoint (c : ℕ) : JsString :=
  if isUnreserved c then [.ofNat c] else (utf8 c).flatMap fun b => [0x25, upperHex (b / 16), upperHex (b % 16)]

/-- `fileOf` -/
def fileOf (digest : JsString → JsString) (name : JsString) : JsString :=
  match codePoints name with
  | some cs =>
    let enc := cs.flatMap encodePoint
    if enc.length ≤ 200 then enc ++ js ".ring" else js "h-" ++ digest name ++ js ".ring"
  | none => js "h-" ++ digest name ++ js ".ring"

/-! ### Files -/

/-- A ring file: its shape, and a ring for each tier. -/
structure RingFile where
  shape : Shape
  rings : Tier → SlotRing Point

/-- A write to a ring file; `create` puts a fresh file in its place. -/
inductive FileWrite
  | create (shape : Shape)
  | ring (tier : Tier) (w : SlotRing.Write Point)

namespace RingFile

/-- `create`: a file of gaps. -/
def fresh (shape : Shape) : RingFile := ⟨shape, fun _ => .fresh⟩

/-- The file after a write. -/
def write (f : Option RingFile) : FileWrite → Option RingFile
  | .create shape => some (fresh shape)
  | .ring t w => f.map fun f => { f with rings := Function.update f.rings t ((f.rings t).write t.len w) }

def writeAll (f : Option RingFile) (ws : List FileWrite) : Option RingFile := ws.foldl write f

/-- Does the index fit the 32 bits of the header? -/
def fits (idx : ℤ) : Bool := idx < 2 ^ 31

/-- The writes that put a point at an index of a tier. -/
def put (f : RingFile) (t : Tier) (idx : ℤ) (p : Option Point) : List FileWrite :=
  (SlotRing.putWrites t.len fits (f.rings t) idx p).map (.ring t)

/-- The points of the minutes of a bucket, as the first tier has them. -/
def minutesIn (f : RingFile) (t : Tier) (b : ℤ) : List Point :=
  (List.range t.step.toNat).filterMap fun k : ℕ => (f.rings .minute).shown Tier.minute.len (b * t.step + k)

/-- The mean of the averages, the lowest of the lowest values and the highest of the highest. -/
def roll : List Point → Option Point
  | [] => none
  | q :: qs => some ⟨((q :: qs).map Point.avg).sum / (q :: qs).length, (qs.map Point.lo).foldl min q.lo,
      (qs.map Point.hi).foldl max q.hi⟩

section

variable (f32 : ℚ → ℚ)

/-- A point as a file of the shape keeps it. -/
def stored (shape : Shape) (p : Point) : Point :=
  ⟨f32 (shape.point p).avg, f32 (shape.point p).lo, f32 (shape.point p).hi⟩

/-- The writes of a minute's point into the first tier, then of the points computed from it.  An index that the header
cannot hold throws before the header is written. -/
def putMinute (f : RingFile) (minute : ℤ) (p : Point) : List FileWrite :=
  let ws := f.put .minute minute (some (stored f32 f.shape p))
  match writeAll (some f) ws with
  | some f' =>
    if (f'.rings .minute).last < minute then ws
    else ws ++ f.shape.rolled.flatMap fun t =>
      f.put t (t.index minute) ((roll (f'.minutesIn t (t.index minute))).map (stored f32 f.shape))
  | none => ws

/-- The writes of `writeMinute`: a file that is not there, or has another shape, is made again first. -/
def minuteWrites (f : Option RingFile) (shape : Shape) (minute : ℤ) (p : Point) : List FileWrite :=
  match f.filter fun f => f.shape = shape with
  | some f => f.putMinute f32 minute p
  | none => .create shape :: (fresh shape).putMinute f32 minute p

end

end RingFile

/-! ### The history -/

/-- The minute in progress of a series. -/
structure Cur where
  minute : ℤ
  sum : ℚ
  n : ℕ
  lo : ℚ
  hi : ℚ
  deriving DecidableEq

namespace Cur

def first (minute : ℤ) (v : ℚ) : Cur := ⟨minute, v, 1, v, v⟩

def push (c : Cur) (v : ℚ) : Cur := { c with sum := c.sum + v, n := c.n + 1, lo := min c.lo v, hi := max c.hi v }

def point (c : Cur) : Point := ⟨c.sum / c.n, c.lo, c.hi⟩

end Cur

/-- A series of a node. -/
abbrev SeriesKey := NodeId × JsString

/-- A value given to the history. -/
structure Sample where
  key : SeriesKey
  minute : ℤ
  value : ℚ
  deriving DecidableEq

/-- The history: the open minutes, and the files; `clock` is the time of its last step. -/
structure History where
  opened : OMap SeriesKey Cur
  files : OMap (NodeId × JsString) RingFile
  added : List Sample
  clock : ℕ

/-- `Math.round(x * 1000) / 1000` -/
def round3 (x : ℚ) : ℚ := ⌊x * 1000 + 1 / 2⌋ / 1000

def Point.rounded (p : Point) : Point := ⟨round3 p.avg, round3 p.lo, round3 p.hi⟩

/-- What a query answers: seconds from one point to the next, and the points with their times in seconds. -/
structure Answer where
  step : ℤ
  points : List (ℤ × Option Point)
  deriving DecidableEq

namespace History

/-- Milliseconds in a minute. -/
def MIN : ℤ := 60000

/-- The history over an empty directory. -/
def empty : History := ⟨.empty, .empty, [], 0⟩

section

variable (f32 : ℚ → ℚ) (digest : JsString → JsString) (maxSeries : ℕ)

/-- The key of a series' file. -/
def fileKey (key : SeriesKey) : NodeId × JsString := (key.1, fileOf digest key.2)

/-- `admit`: may the node take this series? -/
def admits (h : History) (key : SeriesKey) : Bool :=
  h.files.contains (fileKey digest key) ||
    decide ((h.files.entries.filter fun e => e.1.1 = key.1).length < maxSeries)

/-- The writes of a series' minute. -/
def writes (h : History) (key : SeriesKey) (c : Cur) : List FileWrite :=
  if h.admits digest maxSeries key then
    RingFile.minuteWrites f32 (h.files.get? (fileKey digest key)) (shapeOf key.2) c.minute c.point
  else []

/-- The directory after writes to a series' file. -/
def onDisk (h : History) (key : SeriesKey) (ws : List FileWrite) : History :=
  match RingFile.writeAll (h.files.get? (fileKey digest key)) ws with
  | some f => { h with files := h.files.set (fileKey digest key) f }
  | none => h

/-- `close`: an open minute is written. -/
def close (h : History) (key : SeriesKey) (c : Cur) : History :=
  h.onDisk digest key (h.writes f32 digest maxSeries key c)

/-- `add`, for one value. -/
def addOne (h : History) (key : SeriesKey) (v : ℚ) (t : ℕ) : History :=
  let minute : ℤ := t / MIN
  let h : History := { h with added := h.added ++ [⟨key, minute, v⟩] }
  match h.opened.get? key with
  | some cur =>
    if cur.minute = minute then { h with opened := h.opened.set key (cur.push v) }
    else
      let h := h.close f32 digest maxSeries key cur
      if h.admits digest maxSeries key then { h with opened := h.opened.set key (.first minute v) } else h
  | none =>
    if h.admits digest maxSeries key then { h with opened := h.opened.set key (.first minute v) } else h

/-- One entry of an `add`: a value that is not a finite number (`none`) is left out. -/
def addEntry (node : NodeId) (t : ℕ) (h : History) (e : JsString × Option ℚ) : History :=
  match e.2 with
  | some v => h.addOne f32 digest maxSeries (node, e.1) v t
  | none => h

/-- `add`: the values of a node's series. -/
def add (h : History) (node : NodeId) (values : OMap JsString (Option ℚ)) (t : ℕ) : History :=
  values.entries.foldl (addEntry f32 digest maxSeries node t) h

/-- One open minute of a flush: it is written, and forgotten when it is over. -/
def flushOne (t : ℕ) (h : History) (e : SeriesKey × Cur) : History :=
  let h := h.close f32 digest maxSeries e.1 e.2
  if e.2.minute < t / MIN then { h with opened := h.opened.erase e.1 } else h

/-- `flush`: every open minute is written, the current one as it stands. -/
def flush (h : History) (t : ℕ) : History := h.opened.entries.foldl (flushOne f32 digest maxSeries t) h

/-- The history of a new process over the directory. -/
def restart (h : History) : History := { h with opened := .empty }

/-- The process is stopped after `k` of the file writes of a series' open minute, and started again. -/
def cutClose (h : History) (key : SeriesKey) (c : Cur) (k : ℕ) : History :=
  (h.onDisk digest key ((h.writes f32 digest maxSeries key c).take k)).restart

/-- The process is stopped in the middle of an `add`, at its value at a place: after `k` of the file writes that close
the minute before that value, or before it when there is none. -/
def cutAdd (h : History) (node : NodeId) (values : OMap JsString (Option ℚ)) (place k : ℕ) (t : ℕ) : History :=
  let h := (values.entries.take place).foldl (addEntry f32 digest maxSeries node t) h
  match values.entries[place]? with
  | some (name, some _) => match h.opened.get? (node, name) with
    | some cur => if cur.minute = t / MIN then h.restart else h.cutClose f32 digest maxSeries (node, name) cur k
    | none => h.restart
  | _ => h.restart

/-- The process is stopped in the middle of a `flush`, after `k` of the file writes of the open minute at a place. -/
def cutFlush (h : History) (place k : ℕ) (t : ℕ) : History :=
  let h' := (h.opened.entries.take place).foldl (flushOne f32 digest maxSeries t) h
  match h.opened.entries[place]? with
  | some (key, cur) => h'.cutClose f32 digest maxSeries key cur k
  | none => h'.restart

/-- A step: a call, or the process stops and starts again, between two calls or in the middle of one. -/
inductive HistoryOp
  | add (node : NodeId) (values : OMap JsString (Option ℚ))
  | flush
  | restart
  | cutAdd (node : NodeId) (values : OMap JsString (Option ℚ)) (place k : ℕ)
  | cutFlush (place k : ℕ)

/-- A step at a time of the clock. -/
structure HistoryStep where
  time : ℕ
  op : HistoryOp

def effect (h : History) (t : ℕ) : HistoryOp → History
  | .add node values => h.add f32 digest maxSeries node values t
  | .flush => h.flush f32 digest maxSeries t
  | .restart => h.restart
  | .cutAdd node values place k => h.cutAdd f32 digest maxSeries node values place k t
  | .cutFlush place k => h.cutFlush f32 digest maxSeries place k t

def step (h : History) (s : HistoryStep) : History :=
  { h.effect f32 digest maxSeries s.time s.op with clock := s.time }

end

section

variable (digest : JsString → JsString)

/-- The file of a series, when it is one of its shape. -/
def soundFile (h : History) (key : SeriesKey) : Option RingFile :=
  (h.files.get? (fileKey digest key)).filter fun f => f.shape = shapeOf key.2

/-- The point at an index of a tier: the minute in progress from memory, any other from the file. -/
def pointAt (h : History) (key : SeriesKey) (t : Tier) (i : ℤ) : Option Point :=
  match (h.opened.get? key).filter fun c => t = .minute && c.minute = i with
  | some c => some ((shapeOf key.2).point c.point)
  | none => (h.soundFile digest key).bind fun f => (f.rings t).shown t.len i

/-- The indices of a range that ends at a time. -/
def window (range : Range) (t : ℕ) : List ℤ :=
  (List.range range.count).map fun k : ℕ => range.tier.index (t / MIN) - range.count + 1 + k

/-- The range begins in 1970 or later; before it there are no slots. -/
def Since1970 (range : Range) (t : ℕ) : Prop := range.count ≤ range.tier.index (t / MIN) + 1

instance (range : Range) (t : ℕ) : Decidable (Since1970 range t) := inferInstanceAs (Decidable (_ ≤ _))

/-- `query`, of a range that begins in 1970 or later. -/
def query (h : History) (key : SeriesKey) (range : Range) (t : ℕ) : Option Answer :=
  if !(shapeOf key.2).keeps range.tier then none
  else if (h.soundFile digest key).isNone && (h.opened.get? key).isNone then none
  else some ⟨range.tier.step * 60, (window range t).map fun i =>
    (i * range.tier.step * 60, (h.pointAt digest key range.tier i).map Point.rounded)⟩

end

end History

end Servitals
