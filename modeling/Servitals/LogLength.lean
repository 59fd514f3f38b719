import Servitals.AlertLog

/-!
# How long the alert log gets

`log` writes `events.jsonl` anew when the memory holds more than `LOG_MAX + 100` events.  A start reads the last 1000 of
the file into memory, so a file with more lines than that, or with lines that do not parse, is longer than the memory
says.  While no start finds more lines than it reads events, the file stays within its bound, and after a start that
does, a process that logs for long enough passes it (`lines_bounded`); lifetimes of 100 events each add 100 lines each,
and the file is never written anew (`lines_of_lifetimes`).
-/

namespace Servitals

namespace AlertLog

variable {ε : Type*} (c : LineFormat ε UInt8)

/-- The lines of a file. -/
def lineCount (file : List UInt8) : ℕ := file.count c.nl

/-- A start over the file reads as many events into memory as the file has lines, or more. -/
def Counted (file : List UInt8) : Prop := lineCount c file ≤ (start c file []).events.length

/-- A process that starts counts the file in full. -/
def StartsCounted (s : AlertLog ε) : LogOp c → Prop
  | .log _ => True
  | .restart => Counted c s.file
  | .torn t => Counted c (s.file ++ t.left)
  | .untrimmed e => Counted c (s.append c e).file

instance (file : List UInt8) : Decidable (Counted c file) := inferInstanceAs (Decidable (_ ≤ _))

instance (s : AlertLog ε) : (op : LogOp c) → Decidable (StartsCounted c s op)
  | .log _ => .isTrue trivial
  | .restart => inferInstanceAs (Decidable (Counted c s.file))
  | .torn t => inferInstanceAs (Decidable (Counted c (s.file ++ t.left)))
  | .untrimmed e => inferInstanceAs (Decidable (Counted c (s.append c e).file))

/-! ### Lines -/

private theorem lineCount_line (e : ε) : lineCount c (c.line e) = 1 := by
  rw [lineCount, LineFormat.line, List.count_append, List.count_singleton_self,
    List.count_eq_zero_of_not_mem (c.nl_notMem e)]

theorem lineCount_append (s : AlertLog ε) (e : ε) : lineCount c (s.append c e).file = lineCount c s.file + 1 := by
  rw [← lineCount_line c e]
  exact List.count_append

@[simp]
theorem length_append (s : AlertLog ε) (e : ε) : (s.append c e).events.length = s.events.length + 1 := by
  rw [append, List.length_append, List.length_singleton]

private theorem lineCount_write {es : List ε} (h : es ≠ []) : lineCount c (c.write es) = es.length := by
  induction es with
  | nil => exact absurd rfl h
  | cons e es ih =>
    cases es with
    | nil =>
      have hwrite : c.write [e] = c.line e := by simp [LineFormat.write, LineFormat.line, List.intercalate]
      rw [hwrite, lineCount_line, List.length_singleton]
    | cons e' es =>
      have hwrite : c.write (e :: e' :: es) = c.line e ++ c.write (e' :: es) := by
        simp [LineFormat.write, LineFormat.line, List.intercalate]
      rw [hwrite, List.length_cons, ← ih (List.cons_ne_nil _ _), Nat.add_comm, ← lineCount_line c e]
      exact List.count_append

/-! ### The bound -/

/-- The memory holds at least as many events as the file has lines, and not too many. -/
structure Short (s : AlertLog ε) : Prop where
  counted : lineCount c s.file ≤ s.events.length
  events : s.events.length ≤ LOG_MAX + 100

private theorem length_rtake {α : Type*} (l : List α) (n : ℕ) : (l.rtake n).length = min n l.length := by
  rw [List.rtake_eq_reverse_take_reverse, List.length_reverse, List.length_take, List.length_reverse]

variable {c} {s : AlertLog ε}

private theorem length_events_start (file : List UInt8) (appended : List ε) :
    (start c file appended).events.length = min LOG_MAX (c.read file).length := by
  rw [start_events, length_rtake]

private theorem short_start {file : List UInt8} (h : Counted c file) (appended : List ε) :
    Short c (start c file appended) where
  counted := h
  events := by
    rw [length_events_start]
    exact (min_le_left _ _).trans (Nat.le_add_right _ _)

theorem Short.log (h : Short c s) (e : ε) : Short c (s.log c e) := by
  have happend := lineCount_append c s e
  have hlen := length_append c s e
  have := h.counted
  rw [AlertLog.log, trim]
  split
  · rename_i hlong
    have hkept : ((s.append c e).events.rtake LOG_MAX).length = LOG_MAX := by
      rw [length_rtake]
      exact min_eq_left (by omega)
    have hne : (s.append c e).events.rtake LOG_MAX ≠ [] := by
      intro hnil
      rw [hnil] at hkept
      simp [LOG_MAX] at hkept
    exact {
      counted := by dsimp only; rw [lineCount_write c hne]
      events := by dsimp only; rw [hkept]; exact Nat.le_add_right _ _ }
  · rename_i hshort
    exact ⟨by omega, not_lt.1 hshort⟩

theorem Short.step (h : Short c s) {op : LogOp c} (hop : StartsCounted c s op) : Short c (s.step c op) := by
  cases op with
  | log e => exact h.log e
  | restart => exact short_start hop _
  | torn t => exact short_start hop _
  | untrimmed e => exact short_start hop _

/-- Events that the memory has room for are appended, a line each. -/
private theorem run_logs {k : ℕ} (h : s.events.length + k ≤ LOG_MAX + 100) (e : ε) :
    lineCount c (Runs.run (step c) s (List.replicate k (.log e))).file = lineCount c s.file + k := by
  induction k generalizing s with
  | zero => rfl
  | succ k ih =>
    have hlen := length_append c s e
    have hstep : s.step c (.log e) = s.append c e := by
      rw [step, AlertLog.log, trim, if_neg (by omega)]
    rw [List.replicate_succ, Runs.run_cons, hstep, ih (by omega), lineCount_append]
    omega

/-- In every run in which no start finds more lines than it reads events, the file never has more than `LOG_MAX + 101`
lines, between an append and the writing anew either.  After a start that finds more, the process that fills its memory
passes the bound with the append before the file is written anew. -/
theorem lines_bounded (c : LineFormat ε UInt8) (ops : List (LogOp c)) :
    (Runs.Meets (step c) (StartsCounted c) (start c [] []) ops →
      let s := Runs.run (step c) (start c [] []) ops
      lineCount c s.file ≤ LOG_MAX + 101 ∧ ∀ e, lineCount c (s.append c e).file ≤ LOG_MAX + 101) ∧
    ∀ file appended, ¬ Counted c file → ∀ e,
      let s := start c file appended
      LOG_MAX + 101 < lineCount c ((Runs.run (step c) s
        (List.replicate (LOG_MAX + 100 - s.events.length) (.log e))).append c e).file := by
  refine ⟨fun h => ?_, fun file appended hmore e => ?_⟩
  · intro s
    have hempty : Counted c [] := Nat.zero_le _
    have hs : Short c s := h.invariant (fun _ _ hs hop => hs.step hop) (short_start hempty [])
    have hcount := hs.counted.trans hs.events
    refine ⟨by omega, fun e => ?_⟩
    rw [lineCount_append]
    omega
  · -- the lines that are not counted stay in the file until the memory is full
    intro s
    have hlong : s.events.length < lineCount c s.file := not_le.1 hmore
    have hroom : s.events.length ≤ LOG_MAX := by
      rw [length_events_start]
      exact min_le_left _ _
    rw [lineCount_append, run_logs (by omega)]
    omega

/-- The file that a crash in the middle of the second line leaves, with the third event's line behind the torn text. -/
private def tornFile : List UInt8 := kindLines.line .firing ++ tornLine.left ++ kindLines.line .repeated

/-- A log that is read again at its next start is counted, and one with a torn line in it is not. -/
theorem two_lifetimes_counted :
    let s := Runs.run (step kindLines) (start kindLines [] []) [.log .firing, .log .repeated, .restart, .log .resolved]
    let s' := start kindLines tornFile []
    (lineCount kindLines s.file ≤ LOG_MAX + 101 ∧
        ∀ e, lineCount kindLines (s.append kindLines e).file ≤ LOG_MAX + 101) ∧
      LOG_MAX + 101 < lineCount kindLines ((Runs.run (step kindLines) s'
        (List.replicate (LOG_MAX + 100 - s'.events.length) (.log .resolved))).append kindLines .resolved).file :=
  ⟨(lines_bounded kindLines [.log .firing, .log .repeated, .restart, .log .resolved]).1 (by decide +kernel),
    (lines_bounded kindLines []).2 tornFile [] (by decide +kernel) .resolved⟩

/-! ### Short lifetimes -/

/-- A process that logs an event 100 times and stops. -/
def lifetime (c : LineFormat ε UInt8) (e : ε) : List (LogOp c) := List.replicate 100 (.log e) ++ [.restart]

/-- The file grows by 100 lines in each such lifetime, and is never written anew. -/
theorem lines_of_lifetimes (c : LineFormat ε UInt8) (e : ε) (n : ℕ) :
    lineCount c (Runs.run (step c) (start c [] []) (List.replicate n (lifetime c e)).flatten).file = 100 * n := by
  have hlives : ∀ (n : ℕ) (s : AlertLog ε), s.events.length ≤ LOG_MAX →
      lineCount c (Runs.run (step c) s (List.replicate n (lifetime c e)).flatten).file =
        lineCount c s.file + 100 * n := by
    intro n
    induction n with
    | zero => exact fun s _ => rfl
    | succ n ih =>
      intro s hs
      rw [List.replicate_succ, List.flatten_cons, Runs.run_append, ih]
      · rw [lifetime, Runs.run_snoc, step, start_file, run_logs (by omega)]
        omega
      · rw [lifetime, Runs.run_snoc, step, length_events_start]
        exact min_le_left _ _
  have hempty : (start c [] []).events.length ≤ LOG_MAX := by
    rw [length_events_start]
    exact min_le_left _ _
  rw [hlives n _ hempty, start_file]
  exact Nat.zero_add _

/-- Twelve lifetimes of 100 events: 1200 lines. -/
theorem twelve_lifetimes :
    LOG_MAX + 101 < lineCount kindLines (Runs.run (step kindLines) (start kindLines [] [])
      (List.replicate 12 (lifetime kindLines .firing)).flatten).file := by
  rw [lines_of_lifetimes]
  decide

end AlertLog

end Servitals
