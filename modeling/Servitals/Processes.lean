import Servitals.Decimals
import Servitals.Doubles

/-!
# The processes of a host

`processes_json` of `agent/lib/processes.sh`: grep prints the lines of every `/proc/<pid>/stat` after the file's path, awk
joins them to a record per file and prints a row for each, jq makes the rows JSON.  A user chooses the names of processes,
so a name may have anything in it: line breaks, tabs, brackets, the text of another record.  Each process has the row of
its own record all the same, and is compared only with the record that the same pid and start time had at the tick before
(`rows_are_own`).

A text is a list of bytes, each as a code unit, until jq reads it.  awk and jq calculate with doubles; the numbers of a
record are below 2 ^ 53, as the kernel's are.
-/

namespace Servitals

/-! ### awk -/

/-- `index(s, t)`, 0 when `t` is not in `s`. -/
def awkIndex (t : JsString) : JsString → ℕ
  | [] => 0
  | u :: s => if t <+: u :: s then 1 else if awkIndex t s = 0 then 0 else awkIndex t s + 1

/-- `substr(s, m)` -/
def substrFrom (s : JsString) (m : ℕ) : JsString := s.drop (m - 1)

/-- `substr(s, m, n)` -/
def substr (s : JsString) (m n : ℕ) : JsString := (s.drop (m - 1)).take n

/-- `RLENGTH` of `match(s, /.*\) /)`, 0 when it does not match. -/
def lastClose : JsString → ℕ
  | u :: v :: s =>
    if lastClose (v :: s) = 0 then if u = 0x29 ∧ v = 0x20 then 2 else 0 else lastClose (v :: s) + 1
  | _ => 0

/-- `split(s, f, " ")` -/
def awkFields (s : JsString) : List JsString :=
  (split 0x20 (s.map fun u => if u = 0x09 ∨ u = 0x0a then 0x20 else u)).filter fun f => f != []

/-- The number that a text of digits and a point begins with. -/
def awkNumber (s : JsString) : ℚ :=
  let sign := (signOf s).1
  let whole := (signOf s).2.takeWhile isDigit
  let rest := (signOf s).2.dropWhile isDigit
  let fraction := if rest.head? = some 0x2e then (rest.drop 1).takeWhile isDigit else []
  double (sign * (decimal (whole ++ fraction) / 10 ^ fraction.length))

/-- The text of a number without a fraction. -/
def wholeText (x : ℚ) : JsString := intText x.num

/-- `sprintf("%.1f", x)` of a number that is not negative. -/
def tenthsText (x : ℚ) : JsString :=
  count ((roundEven (x * 10)).toNat / 10) ++ 0x2e :: count ((roundEven (x * 10)).toNat % 10)

/-! ### The host -/

/-- What the agent knows of its host: where the host's files are, ticks a second and the size of a page. -/
structure HostEnv where
  root : JsString
  hz : ℕ
  page : ℕ
  oneLine : (0x0a : UInt16) ∉ root
  noStat : ¬ js "/stat:" <:+: root
  hz_lt : hz < 2 ^ 53
  page_pos : 0 < page
  page_lt : page < 2 ^ 53

/-- A process: the fields of its record.  No pid is above the kernel's greatest, and times are counted in nanoseconds of
64 bits. -/
structure Proc where
  pid : ℕ
  name : JsString
  state : UInt16
  /-- From the parent to the major faults of the children. -/
  head : List ℤ
  utime : ℕ
  stime : ℕ
  /-- From the children's times to the timer. -/
  mid : List ℤ
  start : ℕ
  vsize : ℕ
  rss : ℕ
  tail : List ℤ
  pid_le : pid ≤ 2 ^ 22
  ticks_lt : utime + stime < 2 ^ 53
  state_letter : unitIn 'A' 'z' state = true
  head_length : head.length = 10
  mid_length : mid.length = 6

/-- The processes of a host with pages of the size, each with a directory of its own and no more memory than can be
addressed. -/
structure ProcTable (page : ℕ) where
  procs : List Proc
  nodup : (procs.map Proc.pid).Nodup
  fits : ∀ p ∈ procs, p.rss * page < 2 ^ 53

namespace Proc

/-- The words after the name. -/
def words (p : Proc) : List JsString :=
  [p.state] :: p.head.map intText ++ [count p.utime, count p.stime] ++ p.mid.map intText ++
    [count p.start, count p.vsize, count p.rss] ++ p.tail.map intText

/-- `/proc/<pid>/stat`, without the line end. -/
def stat (p : Proc) : JsString := count p.pid ++ js " (" ++ p.name ++ js ") " ++ [0x20].intercalate p.words

def path (root : JsString) (p : Proc) : JsString := root ++ js "/proc/" ++ count p.pid ++ js "/stat"

/-- What grep prints of the file: its lines, each after the path. -/
def grepLines (root : JsString) (p : Proc) : List JsString := (split 0x0a p.stat).map fun l => p.path root ++ 0x3a :: l

def ticks (p : Proc) : ℕ := p.utime + p.stime

end Proc

/-- The first word of `/proc/uptime`. -/
structure Uptime where
  seconds : ℕ
  hundredths : Fin 100

def Uptime.text (u : Uptime) : JsString :=
  count u.seconds ++ 0x2e :: count (u.hundredths / 10) ++ count (u.hundredths % 10)

def Uptime.value (u : Uptime) : ℚ := awkNumber u.text

/-! ### The pass -/

/-- The lines of a file. -/
def fileLines (s : JsString) : List JsString :=
  if s = [] then [] else if s.getLast? = some 0x0a then (split 0x0a s).dropLast else split 0x0a s

/-- What the tick before left: its uptime, and the ticks of each pid and start time. -/
structure Before where
  uptime : ℚ
  seen : List (JsString × JsString)

/-- `BEGIN` -/
def readPrev (file : Option JsString) : Before :=
  match (file.map fileLines).getD [] with
  | [] => ⟨0, []⟩
  | first :: rest =>
    ⟨awkNumber first, rest.map fun line =>
      let p := awkFields line
      (p.getD 0 [] ++ 0x20 :: p.getD 1 [], p.getD 2 [])⟩

/-- `seen[key]`: what was assigned last. -/
def Before.get? (b : Before) (key : JsString) : Option JsString := (b.seen.reverse.find? fun e => e.1 == key).map Prod.snd

/-- The state of awk: the record it is in, the rows it printed and what it wrote for the next tick. -/
structure Awk where
  file : JsString
  record : JsString
  rows : JsString
  saved : JsString

/-- `sub(/\/stat$/, "")` and `sub(/.*\//, "")` -/
def pidOf (file : JsString) : JsString :=
  let dir := if js "/stat" <:+ file then file.take (file.length - 5) else file
  (dir.reverse.takeWhile (· != 0x2f)).reverse

/-- `100 * (ticks - seen[key]) / ((now - before) * hz)` -/
def share (hz before now seen ticks : ℚ) : ℚ :=
  double (double (100 * double (ticks - seen)) / double (double (now - before) * hz))

/-- The share of a core since the tick before, as the text of the row. -/
def cpuText (hz : ℚ) (now : ℚ) (b : Before) (key : JsString) (ticks : ℚ) : JsString :=
  match b.get? key with
  | none => []
  | some t =>
    if 0 < b.uptime ∧ b.uptime < now ∧ awkNumber t ≤ ticks then
      tenthsText (share hz b.uptime now (awkNumber t) ticks)
    else []

/-- `emit` -/
def Awk.emit (env : HostEnv) (now : ℚ) (b : Before) (a : Awk) : Awk :=
  if a.record = [] then a
  else
    let pid := pidOf a.file
    let s := awkIndex [0x28] a.record
    if ¬ (pid ≠ [] ∧ pid.all isDigit) ∨ s = 0 ∨ lastClose a.record = 0 then a
    else
      let e := lastClose a.record - 1
      let name := (substr a.record (s + 1) (e - s - 1)).map fun u => if u = 0x09 then 0x20 else u
      let f := awkFields (substrFrom a.record (e + 2))
      if f.length < 22 then a
      else
        let ticks := double (awkNumber (f.getD 11 []) + awkNumber (f.getD 12 []))
        let key := pid ++ 0x20 :: f.getD 19 []
        { a with
          saved := a.saved ++ key ++ 0x20 :: wholeText ticks ++ [0x0a]
          rows := a.rows ++ pid ++ 0x09 :: name ++ 0x09 :: cpuText (awkNumber (count env.hz)) now b key ticks ++
            0x09 :: intText (roundEven (double (awkNumber (f.getD 21 []) * awkNumber (count env.page)))) ++ [0x0a] }

/-- A line of grep's. -/
def Awk.line (env : HostEnv) (now : ℚ) (b : Before) (a : Awk) (l : JsString) : Awk :=
  let i := awkIndex (js "/stat:") l
  if i = 0 then a
  else
    let path := substr l 1 (i + 4)
    let line := substrFrom l (i + 6)
    if path = a.file then { a with record := a.record ++ 0x20 :: line }
    else { a.emit env now b with file := path, record := line }

/-- A tick's pass: the rows that awk prints, and the file it leaves. -/
def processPass (env : HostEnv) (now : Uptime) (prev : Option JsString) (t : ProcTable env.page) : Awk :=
  let b := readPrev prev
  ((t.procs.flatMap (Proc.grepLines env.root)).foldl (Awk.line env now.value b) ⟨[], [], [], now.text ++ [0x0a]⟩).emit env
    now.value b

/-! ### jq -/

/-- How `jq -R` reads bytes: a character of ASCII is itself wherever it stands, and other bytes become other characters,
or a replacement where they are no UTF-8.  `chars` is what it makes of bytes that more of the line follows. -/
structure JqReader where
  chars : JsString → JsString
  read : JsString → JsString
  read_nil : read [] = []
  read_ascii : ∀ u s, u < 0x80 → read (u :: s) = u :: read s
  read_text : ∀ a b s, (0x0a : UInt16) ∉ a → (∀ u ∈ b, u < 0x80 ∧ u ≠ 0x0a) → 3 ≤ b.length →
    read (a ++ b ++ s) = chars a ++ b ++ read s
  chars_ascii : ∀ a, ∀ u ∈ chars a, u < 0x80 → u ∈ a

/-- `tonumber` of digits and a point. -/
def jqNumber (s : JsString) : Option ℚ := (unsignedDecimal s).map double

structure ProcRow where
  pid : ℚ
  name : JsString
  cpuPct : Option ℚ
  rss : ℚ

def cpuPctOf (cpu : JsString) : Option (Option ℚ) := if cpu = [] then some none else (jqNumber cpu).map some

def rowOf (line : JsString) : Option ProcRow :=
  match split 0x09 line with
  | pid :: name :: cpu :: rss :: _ => do
    let pid ← jqNumber pid
    let cpu ← cpuPctOf cpu
    let rss ← jqNumber rss
    some ⟨pid, name, cpu, rss⟩
  | _ => none

/-- `$all` -/
def rowsOf (jq : JqReader) (rows : JsString) : Option (List ProcRow) :=
  ((split 0x0a (jq.read rows)).filter fun l => l != []).mapM rowOf

structure ProcAnswer where
  cpu : List ProcRow
  mem : List ProcRow

/-- The five busiest and the five largest. -/
def answerOf (all : List ProcRow) : ProcAnswer where
  cpu := ((all.filter fun r => r.cpuPct.any fun c => 0 < c).mergeSort fun r r' =>
    decide (r'.cpuPct.getD 0 < r.cpuPct.getD 0 ∨ r.cpuPct.getD 0 = r'.cpuPct.getD 0 ∧ r.pid ≤ r'.pid)).take 5
  mem := ((all.filter fun r => 0 < r.rss).mergeSort fun r r' =>
    decide (r'.rss < r.rss ∨ r.rss = r'.rss ∧ r.pid ≤ r'.pid)).take 5

/-- `processes_json`; `none` is `null`, when there is no uptime to read. -/
def processesJson (env : HostEnv) (jq : JqReader) (now : Option Uptime) (prev : Option JsString)
    (t : ProcTable env.page) : Option ProcAnswer :=
  now.bind fun u => (rowsOf jq (processPass env u prev t).rows).map answerOf

/-! ### What each row should be -/

/-- A name on one line without tabs. -/
def plainName (name : JsString) : JsString := name.map fun u => if u = 0x0a ∨ u = 0x09 then 0x20 else u

/-- The row of a process from its own record, and from that of the tick before with its pid and start time. -/
def ownRow (env : HostEnv) (jq : JqReader) (before : ProcTable env.page) (was now : Uptime) (p : Proc) : ProcRow where
  pid := p.pid
  name := jq.chars (plainName p.name)
  cpuPct := (before.procs.find? fun q => q.pid == p.pid && q.start == p.start).bind fun q =>
    if 0 < was.value ∧ was.value < now.value ∧ q.ticks ≤ p.ticks then
      some (double (roundEven (share env.hz was.value now.value q.ticks p.ticks * 10) / 10))
    else none
  rss := p.rss * env.page

/-! ### Texts of awk -/

private theorem awkIndex_append {t a r : JsString} (ht : t ≠ []) (hr : t <+: r)
    (h : ∀ b, b ≠ [] → b <:+ a → ¬ t <+: b ++ r) :
    awkIndex t (a ++ r) = a.length + 1 := by
  induction a with
  | nil =>
    cases r with
    | nil => exact absurd (List.prefix_nil.1 hr) ht
    | cons u r => exact if_pos hr
  | cons u a ih =>
    have hrest := ih fun b hb hsuffix => h b hb (hsuffix.trans (List.suffix_cons u a))
    have hno : ¬ t <+: u :: (a ++ r) := h (u :: a) (List.cons_ne_nil _ _) List.suffix_rfl
    rw [List.cons_append, awkIndex, if_neg hno, hrest, if_neg (Nat.succ_ne_zero _), List.length_cons]

theorem awkIndex_unit {c : UInt16} {a : JsString} (h : c ∉ a) (r : JsString) :
    awkIndex [c] (a ++ c :: r) = a.length + 1 := by
  refine awkIndex_append (List.cons_ne_nil _ _) (List.prefix_append [c] r) fun b hb hsuffix hpre => ?_
  cases b with
  | nil => exact hb rfl
  | cons v b =>
    rw [List.cons_append, List.cons_prefix_cons] at hpre
    rw [hpre.1] at h
    exact h (hsuffix.subset List.mem_cons_self)

/-- A text is in the first part when its last unit is not in the second. -/
private theorem infix_of_infix_append {t a b : JsString} {c : UInt16} (hc : c ∉ b) (h : t ++ [c] <:+: a ++ b) :
    t ++ [c] <:+: a := by
  obtain ⟨x, y, hxy⟩ := h
  rcases List.append_eq_append_iff.1 hxy with ⟨z, ha, -⟩ | ⟨z, hx, hb⟩
  · exact ⟨x, z, ha.symm⟩
  · rcases List.eq_nil_or_concat z with rfl | ⟨z, u, rfl⟩
    · rw [List.append_nil] at hx
      exact ⟨x, [], by rw [List.append_nil, hx]⟩
    · have hlast := congrArg List.getLast? hx
      rw [List.concat_eq_append, ← List.append_assoc, List.getLast?_concat, ← List.append_assoc, List.getLast?_concat] at hlast
      refine absurd ?_ hc
      rw [hb, Option.some_inj.1 hlast]
      simp

private theorem lastClose_eq_zero {s : JsString} (h : (0x29 : UInt16) ∉ s) : lastClose s = 0 := by
  induction s with
  | nil => rfl
  | cons u s ih =>
    rw [List.mem_cons, not_or] at h
    cases s with
    | nil => rfl
    | cons v s => rw [lastClose, ih h.2, if_pos rfl, if_neg fun hboth => h.1 hboth.1.symm]

private theorem lastClose_append (a : JsString) {b : JsString} (h : (0x29 : UInt16) ∉ b) :
    lastClose (a ++ 0x29 :: 0x20 :: b) = a.length + 2 := by
  induction a with
  | nil =>
    have hrest : lastClose (0x20 :: b) = 0 := by
      refine lastClose_eq_zero ?_
      rw [List.mem_cons, not_or]
      exact ⟨by decide, h⟩
    rw [List.nil_append, lastClose, hrest, if_pos rfl, if_pos ⟨rfl, rfl⟩]
    rfl
  | cons u a ih =>
    obtain ⟨v, s, hs⟩ : ∃ v s, a ++ 0x29 :: 0x20 :: b = v :: s := by
      cases a with
      | nil => exact ⟨_, _, rfl⟩
      | cons v a => exact ⟨_, _, rfl⟩
    rw [List.cons_append, hs, lastClose, ← hs, ih, if_neg (by omega), List.length_cons]

/-- The lines of a text with a space between them are the text with spaces for line ends. -/
private theorem intercalate_lines (s : JsString) :
    [0x20].intercalate (split 0x0a s) = s.map fun u => if u = 0x0a then 0x20 else u := by
  induction s with
  | nil => exact intercalate_singleton _ _
  | cons u s ih =>
    rw [split, List.map_cons]
    by_cases hu : u = 0x0a
    · rw [if_pos hu, if_pos hu, intercalate_cons _ _ (split_ne_nil _ _), ih, List.nil_append]
    · rw [if_neg hu, if_neg hu, ← ih]
      cases hs : split 0x0a s with
      | nil => exact absurd hs (split_ne_nil _ _)
      | cons p ps =>
        dsimp only
        by_cases hps : ps = []
        · rw [hps, intercalate_singleton, intercalate_singleton]
        · rw [intercalate_cons _ _ hps, intercalate_cons _ _ hps, List.cons_append]

/-- A word of a record: not empty, without blanks and closing brackets. -/
def IsWord (w : JsString) : Prop := w ≠ [] ∧ ∀ u ∈ w, u ≠ 0x20 ∧ u ≠ 0x09 ∧ u ≠ 0x0a ∧ u ≠ 0x29

/-- Words with a space between them are split into the words. -/
private theorem awkFields_intercalate {ws : List JsString} (hne : ws ≠ []) (h : ∀ w ∈ ws, IsWord w) :
    awkFields ([0x20].intercalate ws) = ws := by
  have hself : ([0x20].intercalate ws).map (fun u => if u = 0x09 ∨ u = 0x0a then 0x20 else u) = [0x20].intercalate ws := by
    refine List.map_congr_left (fun u hu => ?_) |>.trans (List.map_id _)
    refine if_neg ?_
    rcases mem_intercalate hu with rfl | ⟨w, hw, hu⟩
    · decide
    · obtain ⟨-, htab, hnl, -⟩ := (h w hw).2 u hu
      exact not_or.2 ⟨htab, hnl⟩
  rw [awkFields, hself, split_intercalate hne fun w hw hmem => ((h w hw).2 _ hmem).1 rfl, List.filter_eq_self]
  exact fun w hw => bne_iff_ne.2 (h w hw).1

/-! ### Numbers -/

theorem isWord_count (n : ℕ) : IsWord (count n) := by
  refine ⟨count_ne_nil n, fun u hu => ?_⟩
  have hdigit := isDigit_iff.1 (isDigit_of_mem_count hu)
  refine ⟨?_, ?_, ?_, ?_⟩ <;> rintro rfl <;> exact absurd hdigit (by decide)

private theorem isWord_intText (z : ℤ) : IsWord (intText z) := by
  unfold intText
  split
  · refine ⟨List.cons_ne_nil _ _, fun u hu => ?_⟩
    rcases List.mem_cons.1 hu with rfl | hu
    · decide
    · exact (isWord_count _).2 u hu
  · exact isWord_count _

private theorem signOf_count (n : ℕ) : signOf (count n) = (1, count n) := by
  cases h : count n with
  | nil => exact absurd h (count_ne_nil n)
  | cons u s =>
    have hu := isDigit_iff.1 (isDigit_of_mem_count (n := n) (u := u) (h ▸ List.mem_cons_self))
    have hminus : u ≠ 0x2d := by
      rintro rfl
      exact absurd hu (by decide)
    have hplus : u ≠ 0x2b := by
      rintro rfl
      exact absurd hu (by decide)
    rw [signOf, if_neg hminus, if_neg hplus]

private theorem awkNumber_count {n : ℕ} (h : n < 2 ^ 53) : awkNumber (count n) = n := by
  have hall : ∀ u ∈ count n, isDigit u = true := fun u hu => isDigit_of_mem_count hu
  have htake : (count n).takeWhile isDigit = count n := List.takeWhile_eq_self_iff.2 hall
  have hdrop : (count n).dropWhile isDigit = [] := List.dropWhile_eq_nil_iff.2 hall
  unfold awkNumber
  rw [signOf_count, htake, hdrop]
  simp [decimal_count, double_natCast h]

private theorem wholeText_natCast (n : ℕ) : wholeText n = count n := by
  rw [wholeText, Rat.num_natCast, intText, if_neg (by omega), Int.natAbs_natCast]

private theorem intText_natCast (n : ℕ) : intText (roundEven (n : ℚ)) = count n := by
  rw [show (n : ℚ) = ((n : ℤ) : ℚ) from rfl, roundEven_intCast, intText, if_neg (by omega), Int.natAbs_natCast]

private theorem jqNumber_count {n : ℕ} (h : n < 2 ^ 53) : jqNumber (count n) = some (n : ℚ) := by
  rw [jqNumber, unsignedDecimal_digits (count_ne_nil n) (List.all_eq_true.2 fun u hu => isDigit_of_mem_count hu),
    decimal_count, Option.map_some, double_natCast h]

/-- Tenths are read back. -/
private theorem unsignedDecimal_tenths (n : ℕ) :
    unsignedDecimal (count (n / 10) ++ 0x2e :: count (n % 10)) = some ((n : ℚ) / 10) := by
  have hall : ∀ m, ∀ u ∈ count m, isDigit u = true := fun m u hu => isDigit_of_mem_count hu
  have hpoint : isDigit 0x2e = false := by decide
  have htake : (count (n / 10) ++ 0x2e :: count (n % 10)).takeWhile isDigit = count (n / 10) := by
    rw [List.takeWhile_append_of_pos (hall _), List.takeWhile_cons, hpoint, if_neg Bool.false_ne_true, List.append_nil]
  have hdrop : (count (n / 10) ++ 0x2e :: count (n % 10)).dropWhile isDigit = 0x2e :: count (n % 10) := by
    rw [List.dropWhile_append_of_pos (hall _), List.dropWhile_cons, hpoint, if_neg Bool.false_ne_true]
  have hfraction : (count (n % 10)).takeWhile isDigit = count (n % 10) := List.takeWhile_eq_self_iff.2 (hall _)
  have hend : (count (n % 10)).dropWhile isDigit = [] := List.dropWhile_eq_nil_iff.2 (hall _)
  have hdigit : ∃ u : UInt16, count (n % 10) = [u] ∧ u.toNat - 0x30 = n % 10 := by
    have hsmall : ∀ d < 10, ∃ u : UInt16, count d = [u] := by
      intro d hd
      rw [count_eq, Nat.toDigits_of_lt_base hd]
      exact ⟨_, rfl⟩
    obtain ⟨u, hu⟩ := hsmall (n % 10) (Nat.mod_lt _ (by decide))
    have hvalue := decimal_count (n % 10)
    rw [hu, ← List.nil_append [u], decimal_concat] at hvalue
    exact ⟨u, hu, by rw [← hvalue]; exact (Nat.zero_add _).symm⟩
  obtain ⟨u, hu, hvalue⟩ := hdigit
  have hdecimal : decimal (count (n / 10) ++ count (n % 10)) = n := by
    rw [hu, decimal_concat, decimal_count, hvalue]
    omega
  unfold unsignedDecimal
  simp only [htake, hdrop, List.head?_cons, if_true, List.drop_succ_cons, List.drop_zero, hfraction, hend]
  rw [if_neg (by simp [count_ne_nil]), hdecimal, hu]
  simp [exponentOf, zpow_neg, div_eq_mul_inv]

/-! ### The record of a process -/

namespace Proc

/-- The record that awk joins: a space for each line end. -/
def record (p : Proc) : JsString := [0x20].intercalate (split 0x0a p.stat)

/-- What names a process from a tick to the next. -/
def key (p : Proc) : JsString := count p.pid ++ 0x20 :: count p.start

/-- What follows the name in the row. -/
def rowTail (env : HostEnv) (now : ℚ) (b : Before) (p : Proc) : JsString :=
  0x09 :: cpuText env.hz now b p.key p.ticks ++ 0x09 :: count (p.rss * env.page)

def rowLine (env : HostEnv) (now : ℚ) (b : Before) (p : Proc) : JsString :=
  count p.pid ++ 0x09 :: plainName p.name ++ p.rowTail env now b

def savedLine (p : Proc) : JsString := p.key ++ 0x20 :: count p.ticks

private theorem isWord_of_mem_words {p : Proc} {w : JsString} (h : w ∈ p.words) : IsWord w := by
  have hints : ∀ zs : List ℤ, w ∈ zs.map intText → IsWord w := by
    intro zs hw
    obtain ⟨z, -, rfl⟩ := List.mem_map.1 hw
    exact isWord_intText z
  have hletter : IsWord [p.state] := by
    have hrange := unitIn_iff.1 p.state_letter
    refine ⟨List.cons_ne_nil _ _, fun u hu => ?_⟩
    rw [List.mem_singleton.1 hu]
    refine ⟨?_, ?_, ?_, ?_⟩ <;> intro heq <;> rw [heq] at hrange <;> exact absurd hrange (by decide)
  simp only [words, List.mem_append, List.mem_cons, List.cons_append, List.not_mem_nil, or_false] at h
  rcases h with rfl | (((h | rfl | rfl) | h) | rfl | rfl | rfl) | h
  · exact hletter
  · exact hints _ h
  · exact isWord_count _
  · exact isWord_count _
  · exact hints _ h
  · exact isWord_count _
  · exact isWord_count _
  · exact isWord_count _
  · exact hints _ h

private theorem words_ne_nil (p : Proc) : p.words ≠ [] := List.cons_ne_nil _ _

private theorem length_words (p : Proc) : p.words.length = 22 + p.tail.length := by
  simp only [words, List.length_append, List.length_cons, List.length_map, List.length_nil, p.head_length, p.mid_length]

private theorem words_getD (p : Proc) :
    p.words.getD 11 [] = count p.utime ∧ p.words.getD 12 [] = count p.stime ∧ p.words.getD 19 [] = count p.start ∧
      p.words.getD 21 [] = count p.rss := by
  simp [words, List.getElem?_append, p.head_length, p.mid_length]

/-- No byte of the words closes a bracket. -/
private theorem close_notMem_words (p : Proc) : (0x29 : UInt16) ∉ [0x20].intercalate p.words := by
  intro h
  rcases mem_intercalate h with h | ⟨w, hw, h⟩
  · exact absurd h (by decide)
  · exact ((isWord_of_mem_words hw).2 _ h).2.2.2 rfl

private theorem record_eq (p : Proc) :
    p.record = count p.pid ++ js " (" ++ (p.name.map fun u => if u = 0x0a then 0x20 else u) ++ js ") " ++
      [0x20].intercalate p.words := by
  have hself : ∀ s : JsString, (0x0a : UInt16) ∉ s → s.map (fun u => if u = 0x0a then 0x20 else u) = s := by
    intro s hs
    refine (List.map_congr_left fun u hu => if_neg ?_).trans (List.map_id _)
    rintro rfl
    exact hs hu
  have hwords : (0x0a : UInt16) ∉ [0x20].intercalate p.words := by
    intro h
    rcases mem_intercalate h with h | ⟨w, hw, h⟩
    · exact absurd h (by decide)
    · exact ((isWord_of_mem_words hw).2 _ h).2.2.1 rfl
  have hpid : (0x0a : UInt16) ∉ count p.pid := fun h => ((isWord_count p.pid).2 _ h).2.2.1 rfl
  rw [record, intercalate_lines, stat]
  simp only [List.map_append]
  rw [hself _ hwords, hself _ hpid]
  rfl

private theorem open_record (p : Proc) : awkIndex [0x28] p.record = (count p.pid).length + 2 := by
  have hpid : (0x28 : UInt16) ∉ count p.pid ++ [0x20] := by
    intro h
    rcases List.mem_append.1 h with h | h
    · exact absurd (isDigit_of_mem_count h) (by decide)
    · exact absurd h (by decide)
  have hrecord : p.record = (count p.pid ++ [0x20]) ++ 0x28 :: ((p.name.map fun u => if u = 0x0a then 0x20 else u) ++
      js ") " ++ [0x20].intercalate p.words) := by
    rw [record_eq, show js " (" = [0x20, 0x28] from rfl]
    simp only [List.append_assoc, List.cons_append, List.nil_append]
  rw [hrecord, awkIndex_unit hpid, List.length_append, List.length_singleton]

private theorem close_record (p : Proc) : lastClose p.record = (count p.pid).length + p.name.length + 4 := by
  have hrecord : p.record = (count p.pid ++ js " (" ++ p.name.map fun u => if u = 0x0a then 0x20 else u) ++
      0x29 :: 0x20 :: [0x20].intercalate p.words := by
    rw [record_eq, show js ") " = [0x29, 0x20] from rfl]
    simp only [List.append_assoc, List.cons_append, List.nil_append]
  rw [hrecord, lastClose_append _ p.close_notMem_words, List.length_append, List.length_append, List.length_map]
  show (count p.pid).length + 2 + p.name.length + 2 = _
  omega

/-- The name of the row is what is between the brackets. -/
private theorem name_record (p : Proc) :
    (substr p.record ((count p.pid).length + 3) p.name.length).map (fun u => if u = 0x09 then 0x20 else u) = plainName p.name := by
  have hlen : (count p.pid ++ js " (").length = (count p.pid).length + 2 := List.length_append
  have hsub : substr p.record ((count p.pid).length + 3) p.name.length = p.name.map fun u => if u = 0x0a then 0x20 else u := by
    rw [substr, record_eq, show (count p.pid).length + 3 - 1 = (count p.pid ++ js " (").length from hlen.symm,
      List.append_assoc, List.append_assoc, List.drop_left,
      List.take_left' (List.length_map _)]
  rw [hsub, List.map_map, plainName]
  refine List.map_congr_left fun u _ => ?_
  show (if (if u = 0x0a then 0x20 else u) = 0x09 then (0x20 : UInt16) else if u = 0x0a then 0x20 else u) = _
  by_cases hnl : u = 0x0a
  · rw [if_pos hnl, if_pos (Or.inl hnl), if_neg (by decide)]
  · rw [if_neg hnl]
    simp only [hnl, false_or]

/-- The fields are the words after the name, whatever the name is. -/
private theorem fields_record (p : Proc) :
    awkFields (substrFrom p.record ((count p.pid).length + p.name.length + 5)) = p.words := by
  have hlen : (count p.pid ++ js " (" ++ (p.name.map fun u => if u = 0x0a then 0x20 else u) ++ js ") ").length =
      (count p.pid).length + p.name.length + 5 - 1 := by
    simp only [List.length_append, List.length_map]
    show (count p.pid).length + 2 + p.name.length + 2 = _
    omega
  rw [substrFrom, record_eq, ← hlen, List.drop_left, awkFields_intercalate p.words_ne_nil fun w hw => isWord_of_mem_words hw]

/-! ### The lines of a process -/

private theorem path_eq (root : JsString) (p : Proc) : p.path root = (root ++ js "/proc/" ++ count p.pid) ++ js "/stat" := by
  rfl

private theorem slash_notMem_count (n : ℕ) : (0x2f : UInt16) ∉ count n := fun h => absurd (isDigit_of_mem_count h)
    (by decide)

/-- The pid is the last directory of the path. -/
private theorem pidOf_path (root : JsString) (p : Proc) : pidOf (p.path root) = count p.pid := by
  have hdir : (p.path root).take ((p.path root).length - 5) = (root ++ js "/proc") ++ 0x2f :: count p.pid := by
    have hlen : (p.path root).length - 5 = (root ++ js "/proc/" ++ count p.pid).length := by
      rw [path_eq, List.length_append]
      exact Nat.add_sub_cancel _ 5
    rw [hlen, path_eq, List.take_left, show js "/proc/" = js "/proc" ++ [0x2f] from rfl]
    simp only [List.append_assoc, List.cons_append, List.nil_append]
  have hname : (count p.pid).reverse.takeWhile (· != 0x2f) = (count p.pid).reverse := by
    refine List.takeWhile_eq_self_iff.2 fun u hu => bne_iff_ne.2 ?_
    rintro rfl
    exact slash_notMem_count _ (List.mem_reverse.1 hu)
  rw [pidOf, if_pos (path_eq root p ▸ List.suffix_append _ _), hdir, List.reverse_append, List.reverse_cons,
    List.append_assoc]
  rw [List.takeWhile_append, hname, if_pos rfl]
  simp

private theorem path_ne_nil (root : JsString) (p : Proc) : p.path root ≠ [] :=
  List.append_ne_nil_of_right_ne_nil _ (by decide)

/-- A file belongs to one pid. -/
private theorem pid_eq_of_path_eq {root : JsString} {p q : Proc} (h : p.path root = q.path root) : p.pid = q.pid := by
  refine count_injective ?_
  rw [← pidOf_path root p, h, pidOf_path]

private theorem noStat_dir (env : HostEnv) (p : Proc) : ¬ js "/stat:" <:+: env.root ++ js "/proc/" ++ count p.pid := by
  have hcolon : (0x3a : UInt16) ∉ js "/proc/" ++ count p.pid := by
    intro h
    rcases List.mem_append.1 h with h | h
    · exact absurd h (by decide)
    · exact absurd (isDigit_of_mem_count h) (by decide)
  rw [List.append_assoc, show js "/stat:" = js "/stat" ++ [0x3a] from rfl]
  intro h
  exact env.noStat (infix_of_infix_append hcolon h)

/-- grep's prefix ends where the path does, in every line. -/
private theorem awkIndex_grepLine (env : HostEnv) (p : Proc) (l : JsString) :
    awkIndex (js "/stat:") (p.path env.root ++ 0x3a :: l) = (env.root ++ js "/proc/" ++ count p.pid).length + 1 := by
  rw [path_eq, List.append_assoc]
  refine awkIndex_append (by decide) (List.prefix_append _ l) fun b hb hsuffix hpre => ?_
  by_cases hlen : 6 ≤ b.length
  · have hin : js "/stat:" <+: b := List.prefix_of_prefix_length_le hpre (List.prefix_append _ _) hlen
    exact noStat_dir env p (hin.isInfix.trans hsuffix.isInfix)
  · -- a `/` is only where `/stat:` begins
    have hpos := List.length_pos_iff.2 hb
    have hslash : (js "/stat:")[b.length]? = some 0x2f := by
      obtain ⟨y, hy⟩ := hpre
      have hget := congrArg (fun s : JsString => s[b.length]?) hy
      rw [List.getElem?_append_left (show b.length < (js "/stat:").length by
        show b.length < 6
        omega), List.getElem?_append_right le_rfl, Nat.sub_self] at hget
      exact hget
    generalize b.length = k at hslash hlen hpos
    interval_cases k <;> exact absurd hslash (by decide)

private theorem line_grepLine (env : HostEnv) (now : ℚ) (b : Before) (a : Awk) (p : Proc) (l : JsString) :
    a.line env now b (p.path env.root ++ 0x3a :: l) =
      if p.path env.root = a.file then { a with record := a.record ++ 0x20 :: l }
      else { a.emit env now b with file := p.path env.root, record := l } := by
  have hi := awkIndex_grepLine env p l
  have hlen : (p.path env.root).length = (env.root ++ js "/proc/" ++ count p.pid).length + 5 := by
    rw [path_eq, List.length_append]
    rfl
  have hpath : substr (p.path env.root ++ 0x3a :: l) 1 (awkIndex (js "/stat:") (p.path env.root ++ 0x3a :: l) + 4) =
      p.path env.root := by
    rw [substr, hi]
    exact List.take_left' hlen
  have hline : substrFrom (p.path env.root ++ 0x3a :: l) (awkIndex (js "/stat:") (p.path env.root ++ 0x3a :: l) + 6) = l := by
    have hcolon : (p.path env.root ++ [0x3a]).length = (env.root ++ js "/proc/" ++ count p.pid).length + 6 := by
      rw [List.length_append, hlen]
      rfl
    rw [substrFrom, hi, List.append_cons]
    exact List.drop_left' hcolon
  unfold Awk.line
  dsimp only
  rw [if_neg (by omega), hpath, hline]

/-- A record is emitted as the row of its process, and as its line for the next tick. -/
private theorem emit_record (env : HostEnv) (now : ℚ) (b : Before) (a : Awk) (p : Proc)
    (hfits : p.rss * env.page < 2 ^ 53)
    (hfile : a.file = p.path env.root) (hrecord : a.record = p.record) :
    a.emit env now b =
      { a with saved := a.saved ++ p.savedLine ++ [0x0a], rows := a.rows ++ p.rowLine env now b ++ [0x0a] } := by
  have hsome : p.record ≠ [] := by
    intro hnil
    have hopen := p.open_record
    rw [hnil] at hopen
    exact absurd hopen (by rw [awkIndex]; omega)
  have hpid : ¬ (¬ (count p.pid ≠ [] ∧ (count p.pid).all isDigit) ∨ awkIndex [0x28] p.record = 0 ∨ lastClose p.record = 0) := by
    rw [open_record, close_record]
    have hdigits : count p.pid ≠ [] ∧ (count p.pid).all isDigit :=
      ⟨count_ne_nil _, List.all_eq_true.2 fun u hu => isDigit_of_mem_count hu⟩
    rintro (h | h | h)
    · exact h hdigits
    · omega
    · omega
  have hend : lastClose p.record - 1 - awkIndex [0x28] p.record - 1 = p.name.length := by
    rw [open_record, close_record]
    omega
  have hfrom : lastClose p.record - 1 + 2 = (count p.pid).length + p.name.length + 5 := by
    rw [close_record]
    omega
  have hfields : ¬ p.words.length < 22 := by
    rw [length_words]
    omega
  obtain ⟨hutime, hstime, hstart, hrss⟩ := p.words_getD
  have hutime_lt : p.utime < 2 ^ 53 := (Nat.le_add_right _ _).trans_lt p.ticks_lt
  have hstime_lt : p.stime < 2 ^ 53 := (Nat.le_add_left _ _).trans_lt p.ticks_lt
  have hrss_lt : p.rss < 2 ^ 53 := (Nat.le_mul_of_pos_right _ env.page_pos).trans_lt hfits
  have hticks : double ((p.utime : ℚ) + p.stime) = p.ticks := by
    rw [← Nat.cast_add, double_natCast p.ticks_lt]
    rfl
  have hbytes : double ((p.rss : ℚ) * env.page) = (p.rss * env.page : ℕ) := by
    rw [← Nat.cast_mul, double_natCast hfits]
  unfold Awk.emit
  dsimp only
  rw [hrecord, if_neg hsome, hfile, pidOf_path, if_neg hpid, hend, hfrom, p.fields_record, if_neg hfields, hutime, hstime,
    hstart, hrss, awkNumber_count hutime_lt, awkNumber_count hstime_lt, awkNumber_count hrss_lt,
    awkNumber_count env.page_lt, awkNumber_count env.hz_lt, hticks, hbytes, wholeText_natCast, intText_natCast,
    show awkIndex [0x28] p.record + 1 = (count p.pid).length + 3 by rw [open_record], p.name_record]
  simp only [savedLine, rowLine, rowTail, key, List.append_assoc, List.cons_append]

/-- Later lines of a file are joined to its record. -/
private theorem foldl_rest (env : HostEnv) (now : ℚ) (b : Before) (p : Proc) (ls : List JsString) (a : Awk)
    (h : a.file = p.path env.root) :
    (ls.map fun l => p.path env.root ++ 0x3a :: l).foldl (Awk.line env now b) a =
      { a with record := [0x20].intercalate (a.record :: ls) } := by
  induction ls generalizing a with
  | nil => rw [List.map_nil, List.foldl_nil, intercalate_singleton]
  | cons l ls ih =>
    have hjoin : [0x20].intercalate ((a.record ++ 0x20 :: l) :: ls) = [0x20].intercalate (a.record :: l :: ls) := by
      rw [intercalate_cons 0x20 a.record (List.cons_ne_nil l ls)]
      by_cases hls : ls = []
      · rw [hls, intercalate_singleton, intercalate_singleton]
      · rw [intercalate_cons _ _ hls, intercalate_cons _ _ hls, List.append_assoc, List.cons_append]
    rw [List.map_cons, List.foldl_cons, line_grepLine, if_pos h.symm,
      ih { a with record := a.record ++ 0x20 :: l } h, hjoin]

/-- The lines of another file emit the record before them, and are joined to the process's own. -/
private theorem foldl_grepLines (env : HostEnv) (now : ℚ) (b : Before) (p : Proc) (a : Awk)
    (h : a.file ≠ p.path env.root) :
    (p.grepLines env.root).foldl (Awk.line env now b) a =
      { a.emit env now b with file := p.path env.root, record := p.record } := by
  rw [grepLines, record]
  cases hs : split 0x0a p.stat with
  | nil => exact absurd hs (split_ne_nil _ _)
  | cons l ls => rw [List.map_cons, List.foldl_cons, line_grepLine, if_neg h.symm, foldl_rest _ _ _ _ _ _ rfl]

end Proc

/-! ### The whole pass -/

/-- Each process of the table adds its row and its saved line, in the order of the table. -/
private theorem foldl_procs (env : HostEnv) (now : ℚ) (b : Before) (ps : List Proc) (hps : (ps.map Proc.pid).Nodup)
    (hfits : ∀ p ∈ ps, p.rss * env.page < 2 ^ 53) (a : Awk) (h : ∀ p ∈ ps, a.file ≠ p.path env.root) :
    (((ps.flatMap (Proc.grepLines env.root)).foldl (Awk.line env now b) a).emit env now b).rows =
        (a.emit env now b).rows ++ ps.flatMap (fun p => p.rowLine env now b ++ [0x0a]) ∧
      (((ps.flatMap (Proc.grepLines env.root)).foldl (Awk.line env now b) a).emit env now b).saved =
        (a.emit env now b).saved ++ ps.flatMap (fun p => p.savedLine ++ [0x0a]) := by
  induction ps generalizing a with
  | nil =>
    simp only [List.flatMap_nil, List.foldl_nil, List.append_nil, and_self]
  | cons p ps ih =>
    have hp := h p List.mem_cons_self
    rw [List.map_cons, List.nodup_cons] at hps
    have hnext : ∀ q ∈ ps, p.path env.root ≠ q.path env.root := by
      intro q hq heq
      exact hps.1 (List.mem_map.2 ⟨q, hq, (Proc.pid_eq_of_path_eq heq).symm⟩)
    obtain ⟨hrows, hsaved⟩ := ih hps.2 (fun q hq => hfits q (List.mem_cons_of_mem _ hq))
      { a.emit env now b with file := p.path env.root, record := p.record } hnext
    have hemit := Proc.emit_record env now b { a.emit env now b with file := p.path env.root, record := p.record } p
      (hfits p List.mem_cons_self) (by dsimp only) (by dsimp only)
    rw [List.flatMap_cons, List.foldl_append, p.foldl_grepLines env now b a hp, hrows, hsaved, hemit]
    simp only [List.flatMap_cons, List.append_assoc, and_self]

private theorem processPass_eq (env : HostEnv) (now : Uptime) (prev : Option JsString) (t : ProcTable env.page) :
    (processPass env now prev t).rows = t.procs.flatMap (fun p => p.rowLine env now.value (readPrev prev) ++ [0x0a]) ∧
      (processPass env now prev t).saved = now.text ++ [0x0a] ++ t.procs.flatMap (fun p => p.savedLine ++ [0x0a]) := by
  have hstart : Awk.emit env now.value (readPrev prev) ⟨[], [], [], now.text ++ [0x0a]⟩ = ⟨[], [], [], now.text ++ [0x0a]⟩ :=
    if_pos rfl
  obtain ⟨hrows, hsaved⟩ := foldl_procs env now.value (readPrev prev) t.procs t.nodup t.fits ⟨[], [], [], now.text ++ [0x0a]⟩
    fun p _ => (p.path_ne_nil env.root).symm
  rw [hstart] at hrows hsaved
  exact ⟨hrows, hsaved⟩

/-! ### The tick before -/

/-- Lines that each have an end are split into the lines. -/
private theorem split_ended {ls : List JsString} (h : ∀ l ∈ ls, (0x0a : UInt16) ∉ l) :
    split 0x0a (ls.flatMap (· ++ [0x0a])) = ls ++ [[]] := by
  induction ls with
  | nil => rfl
  | cons l ls ih =>
    rw [List.flatMap_cons, List.append_assoc, List.singleton_append, split_append_cons (h l List.mem_cons_self),
      ih fun x hx => h x (List.mem_cons_of_mem l hx), List.cons_append]

private theorem fileLines_ended {ls : List JsString} (h : ∀ l ∈ ls, (0x0a : UInt16) ∉ l) :
    fileLines (ls.flatMap (· ++ [0x0a])) = ls := by
  rcases List.eq_nil_or_concat ls with rfl | ⟨ls', l, rfl⟩
  · rfl
  · have hend : ((ls'.concat l).flatMap (· ++ [0x0a])) = (ls'.flatMap (· ++ [0x0a]) ++ l) ++ [0x0a] := by
      rw [List.concat_eq_append, List.flatMap_append, List.flatMap_singleton, List.append_assoc]
    have hlast : ((ls'.concat l).flatMap (· ++ [0x0a])).getLast? = some 0x0a := by
      rw [hend, List.getLast?_concat]
    have hne : (ls'.concat l).flatMap (· ++ [0x0a]) ≠ [] := by
      rw [hend]
      exact List.append_ne_nil_of_right_ne_nil _ (List.cons_ne_nil _ _)
    rw [fileLines, if_neg hne, if_pos hlast, split_ended h, List.dropLast_concat]

private theorem Proc.key_injective {p q : Proc} (h : p.key = q.key) : p.pid = q.pid ∧ p.start = q.start := by
  have hblank : ∀ n, (0x20 : UInt16) ∉ count n := fun n hn => ((isWord_count n).2 _ hn).1 rfl
  obtain ⟨hpid, hstart⟩ := append_sep_inj (hblank _) (hblank _) h
  exact ⟨count_injective hpid, count_injective hstart⟩

private theorem Proc.savedLine_eq (p : Proc) :
    p.savedLine = [0x20].intercalate [count p.pid, count p.start, count p.ticks] := by
  rw [intercalate_cons _ _ (List.cons_ne_nil _ _), intercalate_cons _ _ (List.cons_ne_nil _ _), intercalate_singleton,
    savedLine, key, List.append_assoc, List.cons_append]

private theorem Proc.fields_savedLine (p : Proc) :
    awkFields p.savedLine = [count p.pid, count p.start, count p.ticks] := by
  rw [savedLine_eq, awkFields_intercalate (List.cons_ne_nil _ _)]
  intro w hw
  simp only [List.mem_cons, List.not_mem_nil, or_false] at hw
  rcases hw with rfl | rfl | rfl <;> exact isWord_count _

private theorem Proc.oneLine_savedLine (p : Proc) : (0x0a : UInt16) ∉ p.savedLine := by
  have hcount : ∀ n, (0x0a : UInt16) ∉ count n := fun n hn => ((isWord_count n).2 _ hn).2.2.1 rfl
  simp [savedLine, key, hcount]

private theorem readPrev_lines {first : JsString} {rest : List JsString}
    (h : ∀ l ∈ first :: rest, (0x0a : UInt16) ∉ l) :
    readPrev (some ((first :: rest).flatMap (· ++ [0x0a]))) = ⟨awkNumber first, rest.map fun line =>
      ((awkFields line).getD 0 [] ++ 0x20 :: (awkFields line).getD 1 [], (awkFields line).getD 2 [])⟩ := by
  rw [readPrev, Option.map_some, Option.getD_some, fileLines_ended h]

private theorem Uptime.oneLine (u : Uptime) : (0x0a : UInt16) ∉ u.text := by
  have hcount : ∀ n, (0x0a : UInt16) ∉ count n := fun n hn => ((isWord_count n).2 _ hn).2.2.1 rfl
  simp [text, hcount]

/-- What a tick left is read back: its uptime and the ticks of each of its processes. -/
private theorem readPrev_saved (env : HostEnv) (was : Uptime) (older : Option JsString) (before : ProcTable env.page) :
    readPrev (some (processPass env was older before).saved) =
      ⟨was.value, before.procs.map fun p => (p.key, count p.ticks)⟩ := by
  have hsaved : (processPass env was older before).saved =
      (was.text :: before.procs.map Proc.savedLine).flatMap (· ++ [0x0a]) := by
    rw [(processPass_eq env was older before).2, List.flatMap_cons, List.flatMap_map]
  have hlines : ∀ l ∈ was.text :: before.procs.map Proc.savedLine, (0x0a : UInt16) ∉ l := by
    intro l hl
    rcases List.mem_cons.1 hl with rfl | hl
    · exact was.oneLine
    · obtain ⟨p, -, rfl⟩ := List.mem_map.1 hl
      exact p.oneLine_savedLine
  rw [hsaved, readPrev_lines hlines, List.map_map]
  refine congrArg (Before.mk was.value) (List.map_congr_left fun p _ => ?_)
  rw [Function.comp_apply, p.fields_savedLine]
  rfl

/-- What only one entry meets is found from either end. -/
private theorem find?_reverse {α : Type*} {f : α → Bool} {l : List α}
    (h : ∀ x ∈ l, ∀ y ∈ l, f x = true → f y = true → x = y) :
    l.reverse.find? f = l.find? f := by
  cases hl : l.find? f with
  | none =>
    rw [List.find?_eq_none] at hl ⊢
    exact fun x hx => hl x (List.mem_reverse.1 hx)
  | some x =>
    have hx := List.mem_of_find?_eq_some hl
    have hfx : f x = true := List.find?_some hl
    cases hr : l.reverse.find? f with
    | none => exact absurd hfx (List.find?_eq_none.1 hr x (List.mem_reverse.2 hx))
    | some y =>
      have hy := List.mem_reverse.1 (List.mem_of_find?_eq_some hr)
      rw [h y hy x hx (List.find?_some hr) hfx]

private theorem ProcTable.eq_of_pid_eq {page : ℕ} (t : ProcTable page) {p q : Proc} (hp : p ∈ t.procs)
    (hq : q ∈ t.procs) (h : p.pid = q.pid) :
    p = q := List.inj_on_of_nodup_map t.nodup hp hq h

/-- Only the process of the same pid and start time is found. -/
private theorem get?_readPrev (env : HostEnv) (was : Uptime) (older : Option JsString) (before : ProcTable env.page)
    (p : Proc) :
    (readPrev (some (processPass env was older before).saved)).get? p.key =
      (before.procs.find? fun q => q.pid == p.pid && q.start == p.start).map fun q => count q.ticks := by
  have hsame : ∀ q : Proc, (q.key == p.key) = (q.pid == p.pid && q.start == p.start) := by
    intro q
    rw [Bool.eq_iff_iff, beq_iff_eq, Bool.and_eq_true, beq_iff_eq, beq_iff_eq]
    refine ⟨Proc.key_injective, fun h => ?_⟩
    rw [Proc.key, Proc.key, h.1, h.2]
  have hrev : before.procs.reverse.find? (fun q => q.pid == p.pid && q.start == p.start) =
      before.procs.find? fun q => q.pid == p.pid && q.start == p.start := by
    refine find?_reverse fun q hq r hr hqp hrp => before.eq_of_pid_eq hq hr ?_
    rw [Bool.and_eq_true, beq_iff_eq] at hqp hrp
    rw [hqp.1, hrp.1]
  rw [readPrev_saved, Before.get?, ← List.map_reverse, List.find?_map, Option.map_map, ← hrev]
  simp only [Function.comp_def, hsame]

/-- The texts of shares have digits and points only. -/
private theorem mem_cpuText {hz now : ℚ} {b : Before} {key : JsString} {ticks : ℚ} {u : UInt16}
    (h : u ∈ cpuText hz now b key ticks) : isDigit u = true ∨ u = 0x2e := by
  unfold cpuText at h
  split at h
  · cases h
  · split at h
    · rcases List.mem_append.1 h with h | h
      · exact Or.inl (isDigit_of_mem_count h)
      · exact (List.mem_cons.1 h).symm.imp_left isDigit_of_mem_count
    · cases h

private theorem tenthsText_ne_nil (x : ℚ) :
    tenthsText x ≠ [] := List.append_ne_nil_of_right_ne_nil _ (List.cons_ne_nil _ _)

private theorem jqNumber_tenthsText {x : ℚ} (h : 0 ≤ x) :
    jqNumber (tenthsText x) = some (double (roundEven (x * 10) / 10)) := by
  have hround : 0 ≤ roundEven (x * 10) := roundEven_nonneg (by positivity)
  have hcast : (((roundEven (x * 10)).toNat : ℕ) : ℚ) = (roundEven (x * 10) : ℚ) := by
    rw [← Int.cast_natCast, Int.toNat_of_nonneg hround]
  rw [jqNumber, tenthsText, unsignedDecimal_tenths, hcast, Option.map_some]

private theorem share_nonneg {hz before now seen ticks : ℚ} (hhz : 0 ≤ hz) (hnow : before ≤ now)
    (hticks : seen ≤ ticks) :
    0 ≤ share hz before now seen ticks := by
  have hdone : 0 ≤ double (ticks - seen) := double_nonneg (sub_nonneg.2 hticks)
  have htime : 0 ≤ double (now - before) := double_nonneg (sub_nonneg.2 hnow)
  exact double_nonneg (div_nonneg (double_nonneg (by positivity)) (double_nonneg (by positivity)))

private theorem cpuText_of_get? {hz now : ℚ} {b : Before} {key : JsString} {ticks : ℚ} {m : ℕ} (hm : m < 2 ^ 53)
    (h : b.get? key = some (count m)) :
    cpuText hz now b key ticks =
      if 0 < b.uptime ∧ b.uptime < now ∧ (m : ℚ) ≤ ticks then tenthsText (share hz b.uptime now m ticks) else [] := by
  unfold cpuText
  rw [h]
  simp only [awkNumber_count hm]

/-- The share in the row is that of the process, against its own record of the tick before. -/
private theorem cpuPctOf_cpuText (env : HostEnv) (jq : JqReader) (was now : Uptime) (older : Option JsString)
    (before : ProcTable env.page) (p : Proc) :
    cpuPctOf (cpuText env.hz now.value (readPrev (some (processPass env was older before).saved)) p.key p.ticks) =
      some (ownRow env jq before was now p).cpuPct := by
  have hfound := get?_readPrev env was older before p
  have huptime : (readPrev (some (processPass env was older before).saved)).uptime = was.value := by
    rw [readPrev_saved]
  unfold ownRow
  dsimp only
  cases hq : before.procs.find? fun q => q.pid == p.pid && q.start == p.start with
  | none =>
    rw [hq, Option.map_none] at hfound
    rw [cpuText, hfound, Option.bind_none]
    rfl
  | some q =>
    rw [hq, Option.map_some] at hfound
    have hlt : q.ticks < 2 ^ 53 := q.ticks_lt
    rw [cpuText_of_get? hlt hfound, huptime, Option.bind_some]
    by_cases hcmp : 0 < was.value ∧ was.value < now.value ∧ q.ticks ≤ p.ticks
    · have hcast : 0 < was.value ∧ was.value < now.value ∧ (q.ticks : ℚ) ≤ p.ticks := ⟨hcmp.1, hcmp.2.1, Nat.cast_le.2 hcmp.2.2⟩
      have hshare : 0 ≤ share env.hz was.value now.value q.ticks p.ticks :=
        share_nonneg (Nat.cast_nonneg _) hcast.2.1.le hcast.2.2
      rw [if_pos hcast, if_pos hcmp, cpuPctOf, if_neg (tenthsText_ne_nil _), jqNumber_tenthsText hshare, Option.map_some]
    · have hcast : ¬ (0 < was.value ∧ was.value < now.value ∧ (q.ticks : ℚ) ≤ p.ticks) :=
        fun h => hcmp ⟨h.1, h.2.1, Nat.cast_le.1 h.2.2⟩
      rw [if_neg hcast, if_neg hcmp]
      rfl

/-! ### The rows -/

private theorem plain_plainName (name : JsString) :
    (0x0a : UInt16) ∉ plainName name ∧ (0x09 : UInt16) ∉ plainName name := by
  have hunits : ∀ u ∈ plainName name, u ≠ 0x0a ∧ u ≠ 0x09 := by
    intro u hu
    obtain ⟨v, -, rfl⟩ := List.mem_map.1 hu
    by_cases hv : v = 0x0a ∨ v = 0x09
    · rw [if_pos hv]
      decide
    · rw [if_neg hv]
      exact not_or.1 hv
  exact ⟨fun h => (hunits _ h).1 rfl, fun h => (hunits _ h).2 rfl⟩

namespace JqReader

variable (jq : JqReader)

/-- No line end and no tab comes to be. -/
private theorem plain_chars (name : JsString) :
    (0x0a : UInt16) ∉ jq.chars (plainName name) ∧ (0x09 : UInt16) ∉ jq.chars (plainName name) :=
  ⟨fun h => (plain_plainName name).1 (jq.chars_ascii _ _ h (by decide)),
    fun h => (plain_plainName name).2 (jq.chars_ascii _ _ h (by decide))⟩

private theorem read_all_ascii {a : JsString} (h : ∀ u ∈ a, u < 0x80) (s : JsString) :
    jq.read (a ++ s) = a ++ jq.read s := by
  induction a with
  | nil => rfl
  | cons u a ih =>
    rw [List.cons_append, jq.read_ascii u _ (h u List.mem_cons_self), ih fun v hv => h v (List.mem_cons_of_mem _ hv)]
    rfl

end JqReader

private theorem ascii_of_isDigit {u : UInt16} (h : isDigit u = true) : u < 0x80 ∧ u ≠ 0x0a ∧ u ≠ 0x09 := by
  have hu := isDigit_iff.1 h
  refine ⟨?_, ?_, ?_⟩
  · rw [UInt16.lt_iff_toNat_lt]
    show u.toNat < 128
    omega
  · rintro rfl
    exact absurd hu (by decide)
  · rintro rfl
    exact absurd hu (by decide)

namespace Proc

variable (env : HostEnv) (now : ℚ) (b : Before) (p : Proc)

private theorem ascii_cpuText {u : UInt16} (h : u ∈ cpuText env.hz now b p.key p.ticks) :
    u < 0x80 ∧ u ≠ 0x0a ∧ u ≠ 0x09 := by
  rcases mem_cpuText h with h | rfl
  · exact ascii_of_isDigit h
  · decide

private theorem ascii_rowTail {u : UInt16} (h : u ∈ p.rowTail env now b) : u < 0x80 ∧ u ≠ 0x0a := by
  simp only [rowTail, List.cons_append, List.mem_cons, List.mem_append] at h
  rcases h with rfl | h | rfl | h
  · decide
  · exact ⟨(p.ascii_cpuText env now b h).1, (p.ascii_cpuText env now b h).2.1⟩
  · decide
  · exact ⟨(ascii_of_isDigit (isDigit_of_mem_count h)).1, (ascii_of_isDigit (isDigit_of_mem_count h)).2.1⟩

private theorem three_le_rowTail : 3 ≤ (p.rowTail env now b).length := by
  have hcount := List.length_pos_iff.2 (count_ne_nil (p.rss * env.page))
  simp only [rowTail, List.length_append, List.length_cons]
  omega

/-- The row as jq reads it. -/
def readLine (jq : JqReader) : JsString := count p.pid ++ 0x09 :: jq.chars (plainName p.name) ++ p.rowTail env now b

/-- Only the name of a row is read as other characters. -/
private theorem read_rowLine (jq : JqReader) (s : JsString) :
    jq.read (p.rowLine env now b ++ 0x0a :: s) = p.readLine env now b jq ++ 0x0a :: jq.read s := by
  have hfront : ∀ u ∈ count p.pid ++ [0x09], u < 0x80 := by
    intro u hu
    rcases List.mem_append.1 hu with hu | hu
    · exact (ascii_of_isDigit (isDigit_of_mem_count hu)).1
    · rw [List.mem_singleton.1 hu]
      decide
  have hsplit : p.rowLine env now b ++ 0x0a :: s =
      (count p.pid ++ [0x09]) ++ (plainName p.name ++ p.rowTail env now b ++ 0x0a :: s) := by
    simp only [rowLine, List.append_assoc, List.cons_append, List.nil_append]
  rw [hsplit, jq.read_all_ascii hfront, jq.read_text _ _ _ (plain_plainName p.name).1
    (fun u hu => p.ascii_rowTail env now b hu) (p.three_le_rowTail env now b), jq.read_ascii _ _ (by decide)]
  simp only [readLine, List.append_assoc, List.cons_append, List.nil_append]

/-- A row is on one line, and its name and numbers are between its tabs. -/
private theorem oneLine_readLine (jq : JqReader) : (0x0a : UInt16) ∉ p.readLine env now b jq := by
  intro h
  simp only [readLine, List.mem_append, List.mem_cons] at h
  rcases h with (h | h | h) | h
  · exact (ascii_of_isDigit (isDigit_of_mem_count h)).2.1 rfl
  · exact absurd h (by decide)
  · exact (jq.plain_chars p.name).1 h
  · exact (p.ascii_rowTail env now b h).2 rfl

private theorem split_readLine (jq : JqReader) :
    split 0x09 (p.readLine env now b jq) =
      [count p.pid, jq.chars (plainName p.name), cpuText env.hz now b p.key p.ticks, count (p.rss * env.page)] := by
  have hcount : ∀ n, (0x09 : UInt16) ∉ count n := fun n hn => ((isWord_count n).2 _ hn).2.1 rfl
  have hcpu : (0x09 : UInt16) ∉ cpuText env.hz now b p.key p.ticks := fun h => (p.ascii_cpuText env now b h).2.2 rfl
  rw [readLine, rowTail, List.append_assoc, List.cons_append, List.cons_append, split_append_cons (hcount _),
    split_append_cons (jq.plain_chars p.name).2, split_append_cons hcpu, split_of_notMem (hcount _)]

end Proc

private theorem rowOf_readLine (env : HostEnv) (jq : JqReader) (was now : Uptime) (older : Option JsString)
    (before : ProcTable env.page) (p : Proc) (hfits : p.rss * env.page < 2 ^ 53) :
    rowOf (p.readLine env now.value (readPrev (some (processPass env was older before).saved)) jq) =
      some (ownRow env jq before was now p) := by
  have hrow : ownRow env jq before was now p =
      ⟨p.pid, jq.chars (plainName p.name), (ownRow env jq before was now p).cpuPct, (p.rss * env.page : ℕ)⟩ := by
    rw [ownRow, Nat.cast_mul]
  unfold rowOf
  rw [p.split_readLine]
  dsimp only
  rw [cpuPctOf_cpuText env jq, jqNumber_count (p.pid_le.trans_lt (by norm_num)), jqNumber_count hfits, hrow]
  rfl

private theorem mapM_eq_map {α β : Type*} {f : α → Option β} {g : α → β} {l : List α} (h : ∀ x ∈ l, f x = some (g x)) :
    l.mapM f = some (l.map g) := by
  induction l with
  | nil => rfl
  | cons x l ih =>
    rw [List.mapM_cons, h x List.mem_cons_self, ih fun y hy => h y (List.mem_cons_of_mem x hy)]
    rfl

/-- jq reads row by row. -/
private theorem read_rows (env : HostEnv) (jq : JqReader) (now : ℚ) (b : Before) (ps : List Proc) :
    jq.read (ps.flatMap fun p => p.rowLine env now b ++ [0x0a]) =
      (ps.map fun p => p.readLine env now b jq).flatMap (· ++ [0x0a]) := by
  induction ps with
  | nil => exact jq.read_nil
  | cons p ps ih =>
    rw [List.flatMap_cons, List.append_assoc, List.singleton_append, p.read_rowLine, ih, List.map_cons,
      List.flatMap_cons, List.append_assoc, List.singleton_append]

/-- awk's rows are read back, one for each process. -/
private theorem rowsOf_processPass (env : HostEnv) (jq : JqReader) (was now : Uptime) (older : Option JsString)
    (before t : ProcTable env.page) :
    rowsOf jq (processPass env now (some (processPass env was older before).saved) t).rows =
      some (t.procs.map (ownRow env jq before was now)) := by
  rw [rowsOf, (processPass_eq env now _ t).1, read_rows]
  generalize hb : readPrev (some (processPass env was older before).saved) = b
  have hone : ∀ l ∈ t.procs.map (fun p => p.readLine env now.value b jq), (0x0a : UInt16) ∉ l := by
    intro l hl
    obtain ⟨p, -, rfl⟩ := List.mem_map.1 hl
    exact p.oneLine_readLine env now.value b jq
  have hsome : ∀ l ∈ t.procs.map (fun p => p.readLine env now.value b jq), (l != []) = true := by
    intro l hl
    obtain ⟨p, -, rfl⟩ := List.mem_map.1 hl
    rw [bne_iff_ne, Proc.readLine, List.append_assoc]
    exact List.append_ne_nil_of_left_ne_nil (count_ne_nil _) _
  have hend : [([] : JsString)].filter (fun l => l != []) = [] := rfl
  rw [split_ended hone, List.filter_append, List.filter_eq_self.2 hsome, hend, List.append_nil, List.mapM_map]
  refine mapM_eq_map fun p hp => ?_
  rw [← hb]
  exact rowOf_readLine env jq was now older before p (t.fits p hp)

/-- Each process has the row of its own record, whatever the names are. -/
theorem rows_are_own (env : HostEnv) (jq : JqReader) (was now : Uptime) (older : Option JsString)
    (before t : ProcTable env.page) :
    rowsOf jq (processPass env now (some (processPass env was older before).saved) t).rows =
        some (t.procs.map (ownRow env jq before was now)) ∧
      processesJson env jq (some now) (some (processPass env was older before).saved) t =
        some (answerOf (t.procs.map (ownRow env jq before was now))) ∧
      readPrev (some (processPass env now (some (processPass env was older before).saved) t).saved) =
        ⟨now.value, t.procs.map fun p => (count p.pid ++ 0x20 :: count p.start, count p.ticks)⟩ := by
  have hrows := rowsOf_processPass env jq was now older before t
  refine ⟨hrows, ?_, ?_⟩
  · rw [processesJson, Option.bind_some, hrows, Option.map_some]
  · exact readPrev_saved env now _ t

/-! ### A name that poses as another process -/

private def hostRoot : JsString := js "/host"

private theorem oneLine_hostRoot : (0x0a : UInt16) ∉ hostRoot := by decide

private theorem noStat_hostRoot : ¬ js "/stat:" <:+: hostRoot := by decide

private def hostEnv : HostEnv := ⟨hostRoot, 100, 4096, oneLine_hostRoot, noStat_hostRoot, by norm_num, by norm_num, by norm_num⟩

/-- Bytes above ASCII that are no UTF-8 are read as replacements. -/
private def replaced (u : UInt16) : UInt16 := if u < 0x80 then u else 0xfffd

private def replacer : JqReader where
  chars := List.map replaced
  read := List.map replaced
  read_nil := rfl
  read_ascii u s h := by rw [List.map_cons, replaced, if_pos h]
  read_text a b s _ hb _ := by
    have hself : b.map replaced = b := (List.map_congr_left fun u hu => if_pos (hb u hu).1).trans (List.map_id b)
    rw [List.map_append, List.map_append, hself]
  chars_ascii a u hu h := by
    obtain ⟨v, hv, rfl⟩ := List.mem_map.1 hu
    by_cases hlow : v < 0x80
    · rwa [replaced, if_pos hlow]
    · rw [replaced, if_neg hlow] at h
      exact absurd h (by decide)

private def daemon (utime : ℕ) (h : utime + 40 < 2 ^ 53) : Proc :=
  ⟨7, js "sshd", 0x53, List.replicate 10 1, utime, 40, List.replicate 6 0, 900, 1000000, 512, [], by norm_num, h, rfl, rfl, rfl⟩

/-- Its name has the record of the other process on a line of its own, and a byte that is no UTF-8. -/
private def poser (start : ℕ) : Proc :=
  ⟨8, js "x) S 1\n/host/proc/7/stat:7 (sshd) R\t1" ++ [0xff], 0x52, List.replicate 10 1, 5000, 0, List.replicate 6 0, start,
    1000000, 1, [-1], by norm_num, by norm_num, rfl, rfl, rfl⟩

private theorem nodup_pids (d p : Proc) (hd : d.pid = 7) (hp : p.pid = 8) : ([d, p].map Proc.pid).Nodup := by
  simp [hd, hp]

private theorem fits_page (d p : Proc) (hd : d.rss = 512) (hp : p.rss = 1) :
    ∀ q ∈ [d, p], q.rss * hostEnv.page < 2 ^ 53 := by
  have hpage : hostEnv.page = 4096 := rfl
  simp [hd, hp, hpage]

/-- Three ticks in a minute are 0.1 %, as the double nearest to 0.05 is above it; the poser has been started anew. -/
theorem poser_has_own_row :
    let before : ProcTable hostEnv.page :=
      ⟨[daemon 100 (by norm_num), poser 50], nodup_pids _ _ rfl rfl, fits_page _ _ rfl rfl⟩
    let t : ProcTable hostEnv.page :=
      ⟨[daemon 103 (by norm_num), poser 3000], nodup_pids _ _ rfl rfl, fits_page _ _ rfl rfl⟩
    (rowsOf replacer (processPass hostEnv ⟨160, 0⟩ (some (processPass hostEnv ⟨100, 0⟩ none before).saved) t).rows).map
        (List.map fun r => (r.pid, r.name, r.cpuPct, r.rss)) =
      some [(7, js "sshd", some (double (1 / 10)), 2097152),
        (8, js "x) S 1 /host/proc/7/stat:7 (sshd) R 1" ++ [0xfffd], none, 4096)] := by
  intro before t
  rw [(rows_are_own hostEnv replacer ⟨100, 0⟩ ⟨160, 0⟩ none before t).1]
  decide +kernel

end Servitals
