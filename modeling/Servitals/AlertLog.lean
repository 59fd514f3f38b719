import Servitals.Alerts
import Servitals.Lib.Lines
import Servitals.Lib.Runs

/-!
# The alert log

`createAlerts` and `log` of `hub/lib/alerts.js`: the log in memory, and `events.jsonl` with a line for each event.  An
event is appended as the JSON text of it and a line break, and a file that grew too long is written anew with the last
1000 events.  A crash may leave the start of a line; the next start leaves it out.

The format of a line is a parameter (`LineFormat`).  `appended` is a history variable: every event whose line was
written whole, in order.  A start reads the last 1000 of these as long as no line is appended to a torn one
(`start_reads_last`): the line of such an event is part of the torn line, and the start after the next crash or stop
leaves both out (`appended_to_a_torn_line`).
-/

namespace Servitals

/-- The log of one process, and its file. -/
structure AlertLog (ε : Type*) where
  events : List ε
  file : List UInt8
  appended : List ε

namespace AlertLog

def LOG_MAX : ℕ := 1000

variable {ε : Type*} (c : LineFormat ε UInt8)

/-- The start of a process over the file. -/
def start (file : List UInt8) (appended : List ε) : AlertLog ε := ⟨(c.read file).rtake LOG_MAX, file, appended⟩

/-- `fs.appendFileSync` of an event's line. -/
def append (s : AlertLog ε) (e : ε) : AlertLog ε :=
  ⟨s.events ++ [e], s.file ++ c.line e, s.appended ++ [e]⟩

/-- A file that grew too long is written anew. -/
def trim (s : AlertLog ε) : AlertLog ε :=
  if LOG_MAX + 100 < s.events.length then
    let events := s.events.rtake LOG_MAX
    { s with events := events, file := c.write events }
  else s

/-- `log` -/
def log (s : AlertLog ε) (e : ε) : AlertLog ε := (s.append c e).trim c

/-- A step: an event is logged; the process stops and starts again; it crashes in the middle of a line, or between a
line and the writing anew, and starts again. -/
inductive LogOp
  | log (e : ε)
  | restart
  | torn (t : TornLine c)
  | untrimmed (e : ε)

def step (s : AlertLog ε) : LogOp c → AlertLog ε
  | .log e => s.log c e
  | .restart => start c s.file s.appended
  | .torn t => start c (s.file ++ t.left) s.appended
  | .untrimmed e => start c (s.append c e).file (s.append c e).appended

/-- A line that is written whole is not written after a torn one. -/
def OnNewLine (s : AlertLog ε) : LogOp c → Prop
  | .log _ | .untrimmed _ => c.Closed s.file
  | .restart | .torn _ => True

instance (s : AlertLog ε) (op : LogOp c) : Decidable (OnNewLine c s op) := by
  cases op <;> unfold OnNewLine <;> infer_instance

/-! ### What the log holds -/

@[simp]
theorem start_file (file : List UInt8) (appended : List ε) : (start c file appended).file = file := rfl

theorem start_events (file : List UInt8) (appended : List ε) :
    (start c file appended).events = (c.read file).rtake LOG_MAX := by rw [start]

@[simp]
theorem start_appended (file : List UInt8) (appended : List ε) : (start c file appended).appended = appended := rfl

/-- Memory and the file hold the last events that were appended. -/
structure Holds (s : AlertLog ε) : Prop where
  tailed : c.Tailed s.file
  read : (c.read s.file).rtake LOG_MAX = s.appended.rtake LOG_MAX
  events : s.events.rtake LOG_MAX = s.appended.rtake LOG_MAX

private theorem rtake_rtake {α : Type*} (l : List α) {m n : ℕ} (h : m ≤ n) : (l.rtake n).rtake m = l.rtake m := by
  simp only [List.rtake_eq_reverse_take_reverse, List.reverse_reverse, List.take_take, min_eq_left h]

/-- The last entries of two lists stay the same when one more is appended to both. -/
private theorem rtake_concat {α : Type*} {l l' : List α} {n : ℕ} (h : l.rtake n = l'.rtake n) (x : α) :
    (l ++ [x]).rtake n = (l' ++ [x]).rtake n := by
  cases n with
  | zero => simp
  | succ n =>
    rw [List.rtake_concat_succ, List.rtake_concat_succ, ← rtake_rtake l n.le_succ, h, rtake_rtake l' n.le_succ]

variable {c} {s : AlertLog ε}

theorem Holds.start (h : Holds c s) : Holds c (AlertLog.start c s.file s.appended) where
  tailed := by rw [start_file]; exact h.tailed
  read := by rw [start_file, start_appended, h.read]
  events := by rw [start_appended, start_events, rtake_rtake _ (le_refl LOG_MAX), h.read]

theorem Holds.torn (h : Holds c s) (t : TornLine c) : Holds c (AlertLog.start c (s.file ++ t.left) s.appended) := by
  obtain ⟨htailed, hread⟩ := h.tailed.torn t
  have h' : Holds c { s with file := s.file ++ t.left } := ⟨htailed, by rw [hread, h.read], h.events⟩
  exact h'.start

theorem Holds.append (h : Holds c s) (hnew : c.Closed s.file) (e : ε) : Holds c (s.append c e) where
  tailed := (hnew.append e).1.tailed
  read := by
    show (c.read (s.file ++ c.line e)).rtake LOG_MAX = (s.appended ++ [e]).rtake LOG_MAX
    rw [(hnew.append e).2]
    exact rtake_concat h.read e
  events := rtake_concat h.events e

theorem Holds.trim (h : Holds c s) : Holds c (s.trim c) := by
  unfold AlertLog.trim
  split
  · rename_i hlong
    have hne : s.events.rtake LOG_MAX ≠ [] := by
      intro hnil
      have hlen : (s.events.rtake LOG_MAX).length = s.events.length - (s.events.length - LOG_MAX) := List.length_drop
      rw [hnil] at hlen
      simp only [List.length_nil, LOG_MAX] at hlen hlong
      omega
    have hlast : (s.events.rtake LOG_MAX).rtake LOG_MAX = s.appended.rtake LOG_MAX := by
      rw [rtake_rtake _ (le_refl LOG_MAX), h.events]
    exact {
      tailed := (LineFormat.closed_write c _).tailed
      read := by dsimp only; rw [c.read_write hne, hlast]
      events := by dsimp only; exact hlast }
  · exact h

theorem Holds.step (h : Holds c s) {op : LogOp c} (hop : OnNewLine c s op) : Holds c (s.step c op) := by
  cases op with
  | log e => exact (h.append hop e).trim
  | restart => exact h.start
  | torn t => exact h.torn t
  | untrimmed e => exact (h.append hop e).start

variable (c) in
private theorem holds_empty : Holds c (start c [] []) where
  tailed := LineFormat.Closed.tailed (Or.inl rfl)
  read := by rw [show (start c [] []).file = [] from rfl, show (start c [] []).appended = [] from rfl, c.read_nil]
  events := by simp [start]

/-- In every run of the log in which no line is written whole after a torn one, a start at any moment reads exactly the
last 1000 of the events whose line was written whole, in order. -/
theorem start_reads_last (c : LineFormat ε UInt8) (ops : List (LogOp c))
    (h : Runs.Meets (step c) (OnNewLine c) (start c [] []) ops) :
    let s := Runs.run (step c) (start c [] []) ops
    (start c s.file s.appended).events = s.appended.rtake LOG_MAX := by
  intro s
  have hs : Holds c s := h.invariant (fun _ _ hs hop => hs.step hop) (holds_empty c)
  rw [start_events]
  exact hs.read

/-! ### Two events -/

/-- The line of an event that holds its kind only. -/
def kindText : Kind → List UInt8
  | .firing => (js "\x7b\"kind\":\"firing\"\x7d").map UInt16.toUInt8
  | .repeated => (js "\x7b\"kind\":\"repeat\"\x7d").map UInt16.toUInt8
  | .resolved => (js "\x7b\"kind\":\"resolved\"\x7d").map UInt16.toUInt8

/-- A line starts with its only opening brace. -/
private theorem brace_mem {t : List UInt8} {k : Kind} (ht : t <+: kindText k) (hne : t ≠ []) : 0x7b ∈ t := by
  obtain ⟨u, hu⟩ := ht
  cases t with
  | nil => exact absurd rfl hne
  | cons b t =>
    have hb : b = 0x7b := by
      cases k <;> exact (List.cons.inj hu).1
    exact hb ▸ List.mem_cons_self

/-- Torn lines that follow each other hold more than one opening brace. -/
private theorem torn_kinds {ts : List (List UInt8)} (h : ∀ t ∈ ts, ∃ k, t <+: kindText k ∧ t ≠ kindText k)
    (hne : ts.flatten ≠ []) (hcount : ts.flatten.count 0x7b = 1) :
    ∃ k, ts.flatten <+: kindText k ∧ ts.flatten ≠ kindText k := by
  induction ts with
  | nil => exact absurd rfl hne
  | cons t ts ih =>
    have hts : ∀ u ∈ ts, ∃ k, u <+: kindText k ∧ u ≠ kindText k := fun u hu => h u (List.mem_cons_of_mem t hu)
    rw [List.flatten_cons] at hne hcount ⊢
    by_cases ht : t = []
    · rw [ht, List.nil_append] at hne hcount ⊢
      exact ih hts hne hcount
    · obtain ⟨k, hk⟩ := h t List.mem_cons_self
      have hnil : ts.flatten = [] := by
        by_contra hrest
        obtain ⟨u, hu, hune⟩ := List.flatten_ne_nil_iff.1 hrest
        obtain ⟨k', hk', -⟩ := hts u hu
        have hfirst : 0 < t.count 0x7b := List.count_pos_iff.2 (brace_mem hk.1 ht)
        have hlater : 0 < ts.flatten.count 0x7b :=
          List.count_pos_iff.2 (List.mem_flatten.2 ⟨u, hu, brace_mem hk' hune⟩)
        rw [List.count_append] at hcount
        omega
      rw [hnil, List.append_nil]
      exact ⟨k, hk⟩

/-- The lines of events that hold their kind only. -/
def kindLines : LineFormat Kind UInt8 where
  nl := 0x0a
  text := kindText
  parse line := [.firing, .repeated, .resolved].find? fun k => line = kindText k
  parse_text k := by cases k <;> decide
  text_ne k := by cases k <;> decide
  nl_notMem k := by cases k <;> decide
  parse_torn ts hne h := by
    rw [List.find?_eq_none]
    intro k _ hk
    rw [decide_eq_true_eq] at hk
    have hcount : ts.flatten.count 0x7b = 1 := by
      rw [hk]
      cases k <;> decide
    obtain ⟨k', hpre, hproper⟩ := torn_kinds h hne hcount
    rw [hk] at hpre hproper
    revert hpre hproper
    cases k <;> cases k' <;> decide

/-- The start of the line `{"kind":"resolved"}`. -/
def tornLine : TornLine kindLines where
  entry := .resolved
  left := (js "\x7b\"ki").map UInt16.toUInt8
  isPrefix := by decide
  proper := by decide

/-- A log whose last line is torn is read without it, at each start. -/
theorem torn_line_left_out :
    let s := Runs.run (step kindLines) (start kindLines [] []) [.log .firing, .log .repeated, .torn tornLine, .restart]
    (start kindLines s.file s.appended).events = s.appended.rtake LOG_MAX :=
  start_reads_last kindLines [.log .firing, .log .repeated, .torn tornLine, .restart] (by decide +kernel)

/-- An event logged after a crash in the middle of a line is lost at the second start. -/
theorem appended_to_a_torn_line :
    let s := Runs.run (step kindLines) (start kindLines [] []) [.log .firing, .torn tornLine, .log .repeated, .restart]
    s.events = [.firing] ∧ s.appended.rtake LOG_MAX = [.firing, .repeated] := by
  decide +kernel

end AlertLog

end Servitals
