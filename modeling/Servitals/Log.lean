import Servitals.EnvFile
import Servitals.PushShown

/-!
# The hub's log

`hub/lib/log.js`: one event is one line, logfmt or JSON, with a priority in front of it under systemd; the values of fields
that look like secrets are redacted.  Many values come from outside (names that log in, errors of other programs); a line
is read back as the fields it was written from, whatever is in them (`stream_read`).

`audit` also appends a line to a file of its own, which is renamed when it would grow too long.  The two files hold all
that the calls left, or the newest of it and more than the bound (`audit_kept`).
-/

namespace Servitals

namespace Log

open EnvFile (textLines unlines)

inductive Level
  | error | warn | info | debug
  deriving DecidableEq

/-- `LEVELS` -/
def Level.code : Level → ℕ
  | error => 3
  | warn => 4
  | info => 6
  | debug => 7

def Level.str : Level → JsString
  | error => js "error"
  | warn => js "warn"
  | info => js "info"
  | debug => js "debug"

/-- JSON text has no control characters. -/
abbrev JsonText := { s : JsString // ∀ u ∈ s, ¬ u < 0x20 }

/-- The value of a field; one that is no string is what `JSON.stringify` makes of it. -/
inductive Value
  | undefined | null
  | text (s : JsString)
  | other (json : JsonText)

/-- A letter, a digit or `_`. -/
def isFieldUnit (u : UInt16) : Bool := unitIn 'a' 'z' u || unitIn 'A' 'Z' u || unitIn '0' '9' u || u == 0x5f

/-- The names of fields, as the code writes them: they begin with a letter, so none is an index or `__proto__`. -/
abbrev FieldName := { k : JsString // (k.all isFieldUnit && (k.take 1).any (fun u => unitIn 'a' 'z' u || unitIn 'A' 'Z' u)) = true }

def SECRET_WORDS : List JsString := [js "pass", js "secret", js "token", js "cookie", js "sig", js "key"]

/-- `SECRET_FIELD` -/
def isSecretField (k : FieldName) : Bool := SECRET_WORDS.any fun w => decide (w <:+: lower k.1)

/-- `redact` -/
def redact (fields : List (FieldName × Value)) : List (FieldName × Value) :=
  fields.map fun e => (e.1, if isSecretField e.1 then .text (js "[redacted]") else e.2)

/-- `typeof v === "string" ? v : JSON.stringify(v)`, and nothing for a missing value. -/
def Value.str : Value → JsString
  | undefined | null => []
  | text s => s
  | other json => json.1

/-- `fmtValue` -/
def fmtValue (v : Value) : JsString :=
  match v with
  | .undefined | .null => js "\"\""
  | v => if v.str = [] ∨ v.str.any (fun u => isSpace u || u == 0x22 || u == 0x3d) then quoted v.str else v.str

/-- `logfmt` -/
def logfmt (rec : List (FieldName × Value)) : JsString :=
  [0x20].intercalate (rec.map fun e => e.1.1 ++ 0x3d :: fmtValue e.2)

/-- `JSON.stringify` of a field's value, which leaves out an undefined one. -/
def jsonMember (e : FieldName × Value) : Option JsString :=
  match e.2 with
  | .undefined => none
  | .null => some (quoted e.1.1 ++ 0x3a :: js "null")
  | .text s => some (quoted e.1.1 ++ 0x3a :: quoted s)
  | .other json => some (quoted e.1.1 ++ 0x3a :: json.1)

/-- `JSON.stringify` of a record. -/
def jsonText (rec : List (FieldName × Value)) : JsString := 0x7b :: [0x2c].intercalate (rec.filterMap jsonMember) ++ [0x7d]

structure Options where
  threshold : Level
  json : Bool
  journal : Bool

/-- A call of the logger, with the time it is made at. -/
structure Call where
  level : Level
  ts : JsString
  event : JsString
  fields : List (FieldName × Value)

def TS : FieldName := ⟨js "ts", by decide +kernel⟩

def LEVEL : FieldName := ⟨js "level", by decide +kernel⟩

def EVENT : FieldName := ⟨js "event", by decide +kernel⟩

namespace Call

/-- `{ ts, level, event, ...redact(fields) }` -/
def record (c : Call) : List (FieldName × Value) :=
  (redact c.fields).foldl (fun rec e => OMap.setEntries e.1 e.2 rec)
    [(TS, .text c.ts), (LEVEL, .text c.level.str), (EVENT, .text c.event)]

/-- `<6>` -/
def priority (o : Options) (c : Call) : JsString := if o.journal then [0x3c, hexDigit c.level.code, 0x3e] else []

def line (o : Options) (c : Call) : JsString :=
  c.priority o ++ if o.json then jsonText c.record else logfmt c.record

/-- `if (LEVELS[lvl] > threshold) return` -/
def shown (o : Options) (c : Call) : Bool := c.level.code ≤ o.threshold.code

/-- `emit` -/
def emit (o : Options) (c : Call) : JsString := if c.shown o then c.line o ++ [0x0a] else []

/-- The call without the values of its secret fields. -/
def hide (c : Call) : Call := { c with fields := c.fields.map fun e => (e.1, if isSecretField e.1 then .undefined else e.2) }

end Call

/-- What some calls write. -/
def stream (o : Options) (calls : List Call) : JsString := calls.flatMap (Call.emit o)

/-! ### Reading -/

/-- A value, between quotes or up to a blank. -/
def readValue : JsString → Option (JsString × JsString)
  | [] => some ([], [])
  | u :: s => if u = 0x22 then readChars s else some ((u :: s).takeWhile (· ≠ 0x20), (u :: s).dropWhile (· ≠ 0x20))

/-- A name and its value, and what comes after them. -/
def readPair (s : JsString) : Option ((JsString × JsString) × JsString) :=
  match s.dropWhile (· ≠ 0x3d) with
  | [] => none
  | _ :: t => (readValue t).map fun r => ((s.takeWhile (· ≠ 0x3d), r.1), r.2)

/-- The pairs of a line, at most `n`. -/
def readPairs : ℕ → JsString → Option (List (JsString × JsString))
  | 0, _ => none
  | n + 1, s => (readPair s).bind fun r => match r.2 with
    | [] => some [r.1]
    | _ :: rest => (readPairs n rest).map (r.1 :: ·)

def readLogfmt (s : JsString) : Option (List (JsString × JsString)) := readPairs (s.length + 1) s

/-- A line of the log: its priority, when it has one, and its fields. -/
def readLine (journal : Bool) (l : JsString) : Option ℕ × Option (List (JsString × JsString)) :=
  if journal then ((l.drop 1).head?.bind hexValue, readLogfmt (l.drop 3)) else (none, readLogfmt l)

private theorem fieldUnit_of_mem {k : FieldName} {u : UInt16} (h : u ∈ k.1) : isFieldUnit u = true :=
  List.all_eq_true.1 (Bool.and_eq_true_iff.1 k.2).1 u h

private theorem notMem_fieldName {u : UInt16} (hu : isFieldUnit u = false) (k : FieldName) : u ∉ k.1 := by
  intro h
  rw [fieldUnit_of_mem h] at hu
  cases hu

/-! ### One line -/

/-- The text between two quotes has no control characters. -/
private theorem jsonChar_printable {s c : JsString} (h : c ∈ chars s) : ∀ u ∈ jsonChar c, ¬ u < 0x20 := by
  have hlow : ∀ {u : UInt16}, 0x20 ≤ u.toNat → ¬ u < 0x20 := by
    intro u hu
    rw [UInt16.lt_iff_toNat_lt]
    exact not_lt.2 hu
  have hshort : ∀ e ∈ [js "\\\"", js "\\\\", js "\\b", js "\\f", js "\\n", js "\\r", js "\\t"], ∀ u ∈ e, ¬ u < 0x20 := by
    have hall : ([js "\\\"", js "\\\\", js "\\b", js "\\f", js "\\n", js "\\r", js "\\t"].all fun e =>
        e.all fun u => decide (0x20 ≤ u.toNat)) = true := by decide +kernel
    intro e he u hu
    exact hlow (of_decide_eq_true (List.all_eq_true.1 (List.all_eq_true.1 hall e he) u hu))
  rcases cases_of_mem_chars h with ⟨u, -, rfl⟩ | ⟨u, v, rfl, hu, hv⟩
  · unfold jsonChar
    dsimp only
    split
    · exact hshort _ (by simp)
    · split
      · exact hshort _ (by simp)
      · split
        · exact hshort _ (by simp)
        · split
          · exact hshort _ (by simp)
          · split
            · exact hshort _ (by simp)
            · split
              · exact hshort _ (by simp)
              · split
                · exact hshort _ (by simp)
                · split
                  · intro v hv
                    have hmark : ((js "\\u").all fun w => decide (0x20 ≤ w.toNat)) = true := by decide +kernel
                    have hdigit : ∀ n < 16, 0x20 ≤ (lowerHex n).toNat := by decide
                    have hlt : u.toNat < 0x10000 := by simpa using u.toNat_lt
                    rcases List.mem_append.1 hv with hv | hv
                    · exact hlow (of_decide_eq_true (List.all_eq_true.1 hmark v hv))
                    · simp only [List.mem_cons, List.not_mem_nil, or_false] at hv
                      rcases hv with rfl | rfl | rfl | rfl <;> exact hlow (hdigit _ (by omega))
                  · rename_i hno
                    simp only [Bool.or_eq_true, decide_eq_true_eq, not_or] at hno
                    intro v hv
                    rw [List.mem_singleton.1 hv]
                    exact hno.1.1
  · have hu' := isHigh_iff.1 hu
    have hv' := isLow_iff.1 hv
    intro w hw
    simp only [jsonChar, List.mem_cons, List.not_mem_nil, or_false] at hw
    rcases hw with rfl | rfl
    · exact hlow (by omega)
    · exact hlow (by omega)

private theorem quoted_printable (s : JsString) : ∀ u ∈ quoted s, ¬ u < 0x20 := by
  intro u hu
  rw [quoted, List.cons_append, List.mem_cons, List.mem_append, List.mem_flatMap, List.mem_singleton] at hu
  rcases hu with rfl | ⟨c, hc, hu⟩ | rfl
  · decide
  · exact jsonChar_printable hc u hu
  · decide

private theorem notMem_quoted (s : JsString) : 0x0a ∉ quoted s := fun h => quoted_printable s _ h (by decide)

private theorem notMem_fmtValue (v : Value) : 0x0a ∉ fmtValue v := by
  have hplain : 0x0a ∉ (if v.str = [] ∨ v.str.any (fun u => isSpace u || u == 0x22 || u == 0x3d) then quoted v.str
      else v.str) := by
    split
    · exact notMem_quoted v.str
    · rename_i hno
      intro h
      exact hno (Or.inr (List.any_eq_true.2 ⟨0x0a, h, by decide⟩))
  cases v with
  | undefined => exact fun h => absurd h (by decide +kernel)
  | null => exact fun h => absurd h (by decide +kernel)
  | text s => exact hplain
  | other json => exact hplain

private theorem notMem_intercalate {sep : UInt16} {ws : List JsString} (hsep : sep ≠ 0x0a) (h : ∀ w ∈ ws, 0x0a ∉ w) :
    0x0a ∉ [sep].intercalate ws := by
  intro hm
  rcases mem_intercalate hm with hm | ⟨w, hw, hm⟩
  · exact hsep hm.symm
  · exact h w hw hm

private theorem notMem_logfmt (rec : List (FieldName × Value)) : 0x0a ∉ logfmt rec := by
  refine notMem_intercalate (by decide) fun w hw => ?_
  obtain ⟨e, -, rfl⟩ := List.mem_map.1 hw
  rw [List.mem_append, List.mem_cons]
  rintro (h | h | h)
  · exact notMem_fieldName (by decide) e.1 h
  · exact absurd h (by decide)
  · exact notMem_fmtValue e.2 h

private theorem notMem_jsonText (rec : List (FieldName × Value)) : 0x0a ∉ jsonText rec := by
  have hmembers : 0x0a ∉ [0x2c].intercalate (rec.filterMap jsonMember) := by
    refine notMem_intercalate (by decide) fun w hw => ?_
    obtain ⟨⟨k, v⟩, -, he⟩ := List.mem_filterMap.1 hw
    have hpart : ∀ t : JsString, 0x0a ∉ t → 0x0a ∉ quoted k.1 ++ 0x3a :: t := by
      intro t ht h
      rcases List.mem_append.1 h with h | h
      · exact notMem_quoted _ h
      · rcases List.mem_cons.1 h with h | h
        · exact absurd h (by decide)
        · exact ht h
    cases v with
    | undefined => cases he
    | null =>
      rw [← Option.some.inj he]
      exact hpart _ (by decide +kernel)
    | text s =>
      rw [← Option.some.inj he]
      exact hpart _ (notMem_quoted s)
    | other json =>
      rw [← Option.some.inj he]
      exact hpart _ fun h => json.2 _ h (by decide)
  rw [jsonText, List.cons_append, List.mem_cons, List.mem_append, List.mem_singleton]
  rintro (h | h | h)
  · exact absurd h (by decide)
  · exact hmembers h
  · exact absurd h (by decide)

theorem notMem_line (o : Options) (c : Call) : 0x0a ∉ c.line o := by
  have hcodes : ∀ lvl : Level, (0x0a : UInt16) ∉ [0x3c, hexDigit lvl.code, 0x3e] := by
    intro lvl
    cases lvl <;> decide
  rw [Call.line, List.mem_append]
  rintro (h | h)
  · unfold Call.priority at h
    split at h
    · exact hcodes c.level h
    · cases h
  · split at h
    · exact notMem_jsonText _ h
    · exact notMem_logfmt _ h

private theorem stream_eq (o : Options) (calls : List Call) :
    stream o calls = unlines ((calls.filter (Call.shown o)).map (Call.line o)) := by
  induction calls with
  | nil => rfl
  | cons c calls ih =>
    rw [stream, List.flatMap_cons, ← stream, ih, Call.emit]
    by_cases hc : c.shown o = true
    · rw [if_pos hc, List.filter_cons_of_pos hc, List.map_cons]
      rfl
    · rw [if_neg hc, List.filter_cons_of_neg hc, List.nil_append]

/-! ### What is read -/

private theorem readValue_quoted (s rest : JsString) : readValue (quoted s ++ rest) = some (s, rest) := by
  have hread := readString_quoted s rest
  rw [quoted, List.cons_append, List.cons_append, readString_cons] at hread
  rw [quoted, List.cons_append, List.cons_append, readValue, if_pos rfl, hread]

/-- A text without blanks is read up to the blank behind it. -/
private theorem readValue_plain {s rest : JsString} (hne : s ≠ [])
    (hs : s.any (fun u => isSpace u || u == 0x22 || u == 0x3d) = false)
    (hrest : rest = [] ∨ ∃ t, rest = 0x20 :: t) : readValue (s ++ rest) = some (s, rest) := by
  have hall : ∀ u ∈ s, decide (u ≠ 0x20) = true ∧ u ≠ 0x22 := by
    intro u hu
    have h := List.any_eq_false.1 hs u hu
    simp only [Bool.or_eq_true, not_or, beq_iff_eq] at h
    have hblank : u ≠ 0x20 := by
      rintro rfl
      exact h.1.1 (by decide)
    exact ⟨decide_eq_true hblank, h.1.2⟩
  have htake : (s ++ rest).takeWhile (· ≠ 0x20) = s ∧ (s ++ rest).dropWhile (· ≠ 0x20) = rest := by
    rw [List.takeWhile_append_of_pos fun u hu => (hall u hu).1, List.dropWhile_append_of_pos fun u hu => (hall u hu).1]
    rcases hrest with rfl | ⟨t, rfl⟩
    · exact ⟨List.append_nil s, rfl⟩
    · rw [List.takeWhile_cons_of_neg (by decide), List.dropWhile_cons_of_neg (by decide), List.append_nil]
      exact ⟨rfl, rfl⟩
  obtain ⟨u, t, rfl⟩ := List.exists_cons_of_ne_nil hne
  have hu := (hall u List.mem_cons_self).2
  rw [List.cons_append] at htake
  rw [List.cons_append, readValue, if_neg hu, htake.1, htake.2]

private theorem readValue_fmtValue (v : Value) {rest : JsString} (hrest : rest = [] ∨ ∃ t, rest = 0x20 :: t) :
    readValue (fmtValue v ++ rest) = some (v.str, rest) := by
  have hempty : js "\"\"" = quoted [] := by decide +kernel
  have hplain : readValue ((if v.str = [] ∨ v.str.any (fun u => isSpace u || u == 0x22 || u == 0x3d) then quoted v.str
      else v.str) ++ rest) = some (v.str, rest) := by
    split
    · exact readValue_quoted v.str rest
    · rename_i hno
      rw [not_or, Bool.not_eq_true] at hno
      exact readValue_plain hno.1 hno.2 hrest
  cases v with
  | undefined =>
    show readValue (js "\"\"" ++ rest) = some ([], rest)
    rw [hempty, readValue_quoted]
  | null =>
    show readValue (js "\"\"" ++ rest) = some ([], rest)
    rw [hempty, readValue_quoted]
  | text s => exact hplain
  | other json => exact hplain

private theorem readPair_text (e : FieldName × Value) {rest : JsString} (hrest : rest = [] ∨ ∃ t, rest = 0x20 :: t) :
    readPair ((e.1.1 ++ 0x3d :: fmtValue e.2) ++ rest) = some ((e.1.1, e.2.str), rest) := by
  have hall : ∀ u ∈ e.1.1, decide (u ≠ 0x3d) = true := by
    intro u hu
    rw [decide_eq_true_eq]
    rintro rfl
    exact notMem_fieldName (by decide) e.1 hu
  rw [readPair, List.append_assoc, List.takeWhile_append_of_pos hall, List.dropWhile_append_of_pos hall, List.cons_append,
    List.dropWhile_cons_of_neg (by decide), List.takeWhile_cons_of_neg (by decide), List.append_nil]
  dsimp only
  rw [readValue_fmtValue e.2 hrest, Option.map_some]

private theorem readPairs_logfmt {n : ℕ} {rec : List (FieldName × Value)} (hne : rec ≠ []) (hn : rec.length ≤ n) :
    readPairs n (logfmt rec) = some (rec.map fun e => (e.1.1, e.2.str)) := by
  induction rec generalizing n with
  | nil => exact absurd rfl hne
  | cons e rec ih =>
    obtain ⟨n, rfl⟩ : ∃ k, n = k + 1 := ⟨n - 1, by rw [List.length_cons] at hn; omega⟩
    by_cases hrec : rec = []
    · subst hrec
      have hread := readPair_text e (Or.inl (rfl : ([] : JsString) = []))
      rw [List.append_nil] at hread
      rw [logfmt, List.map_cons, List.map_nil, intercalate_singleton, readPairs, hread]
      rfl
    · have hrest := ih hrec (show rec.length ≤ n by rw [List.length_cons] at hn; omega)
      have hmap : rec.map (fun e => e.1.1 ++ 0x3d :: fmtValue e.2) ≠ [] := by simpa using hrec
      rw [logfmt, List.map_cons, intercalate_cons _ _ hmap, ← logfmt, readPairs, readPair_text e (Or.inr ⟨_, rfl⟩),
        Option.bind_some]
      dsimp only
      rw [hrest, Option.map_some, List.map_cons]

private theorem length_le_logfmt (rec : List (FieldName × Value)) : rec.length ≤ (logfmt rec).length + 1 := by
  induction rec with
  | nil => exact Nat.zero_le _
  | cons e rec ih =>
    by_cases hrec : rec = []
    · subst hrec
      exact Nat.le_add_left 1 _
    · have hmap : rec.map (fun e => e.1.1 ++ 0x3d :: fmtValue e.2) ≠ [] := by simpa using hrec
      rw [logfmt, List.map_cons, intercalate_cons _ _ hmap, ← logfmt, List.length_append, List.length_cons, List.length_cons]
      omega

private theorem record_ne_nil (c : Call) : c.record ≠ [] := by
  have hfold : ∀ (fields : List (FieldName × Value)) (rec : List (FieldName × Value)), rec ≠ [] →
      fields.foldl (fun rec e => OMap.setEntries e.1 e.2 rec) rec ≠ [] := by
    intro fields
    induction fields with
    | nil => exact fun rec hrec => hrec
    | cons e fields ih =>
      intro rec hrec
      refine ih _ fun hnil => ?_
      have hnil : OMap.setEntries e.1 e.2 rec = [] := hnil
      have hmem : e.1 ∈ (OMap.setEntries e.1 e.2 rec).map Prod.fst := OMap.mem_keys_setEntries.2 (Or.inl rfl)
      rw [hnil] at hmem
      exact absurd hmem List.not_mem_nil
  exact hfold _ _ (List.cons_ne_nil _ _)

/-- A line of logfmt says its priority and its fields. -/
private theorem readLine_line (threshold : Level) (journal : Bool) (c : Call) :
    readLine journal (c.line ⟨threshold, false, journal⟩) =
      (if journal then some c.level.code else none, some (c.record.map fun e => (e.1.1, e.2.str))) := by
  have hread : readLogfmt (logfmt c.record) = some (c.record.map fun e => (e.1.1, e.2.str)) :=
    readPairs_logfmt (record_ne_nil c) (length_le_logfmt _)
  have hcodes : ∀ lvl : Level, hexValue (hexDigit lvl.code) = some lvl.code := by
    intro lvl
    cases lvl <;> decide
  cases journal with
  | false =>
    show (none, readLogfmt (logfmt c.record)) = (none, some (c.record.map fun e => (e.1.1, e.2.str)))
    rw [hread]
  | true =>
    show (hexValue (hexDigit c.level.code), readLogfmt (logfmt c.record)) =
      (some c.level.code, some (c.record.map fun e => (e.1.1, e.2.str)))
    rw [hread, hcodes]

private theorem redact_hide (fields : List (FieldName × Value)) :
    redact (fields.map fun e => (e.1, if isSecretField e.1 then .undefined else e.2)) = redact fields := by
  rw [redact, redact, List.map_map]
  refine List.map_congr_left fun e _ => ?_
  dsimp only [Function.comp]
  by_cases he : isSecretField e.1 = true
  · rw [if_pos he, if_pos he]
  · rw [if_neg he, if_neg he, if_neg he]

private theorem emit_hide (o : Options) (c : Call) : c.hide.emit o = c.emit o := by
  have hrecord : c.hide.record = c.record := by
    rw [Call.record, Call.record, Call.hide, redact_hide]
  unfold Call.emit Call.line
  rw [hrecord]
  rfl

/-- **A log that is read back.**  For every threshold and every calls, whatever their values are: the log has one line for
each call at or above the threshold and no other, in both formats; a line of logfmt says the call's priority and its
fields; and nothing in the log depends on the value of a field that looks like a secret. -/
theorem stream_read (threshold : Level) (journal : Bool) (calls : List Call) :
    (∀ json, textLines (stream ⟨threshold, json, journal⟩ calls) =
      (calls.filter (Call.shown ⟨threshold, json, journal⟩)).map (Call.line ⟨threshold, json, journal⟩)) ∧
    (textLines (stream ⟨threshold, false, journal⟩ calls)).map (readLine journal) =
      (calls.filter (Call.shown ⟨threshold, false, journal⟩)).map (fun c =>
        (if journal then some c.level.code else none, some (c.record.map fun e => (e.1.1, e.2.str)))) ∧
    ∀ json, stream ⟨threshold, json, journal⟩ (calls.map Call.hide) = stream ⟨threshold, json, journal⟩ calls := by
  have hlines : ∀ json, textLines (stream ⟨threshold, json, journal⟩ calls) =
      (calls.filter (Call.shown ⟨threshold, json, journal⟩)).map (Call.line ⟨threshold, json, journal⟩) := by
    intro json
    rw [stream_eq]
    refine EnvFile.textLines_unlines fun l hl => ?_
    obtain ⟨c, -, rfl⟩ := List.mem_map.1 hl
    exact notMem_line _ c
  refine ⟨hlines, ?_, fun json => ?_⟩
  · rw [hlines, List.map_map]
    exact List.map_congr_left fun c _ => readLine_line threshold journal c
  · rw [stream, List.flatMap_map, stream]
    exact congrArg (fun f => calls.flatMap f) (funext fun c => emit_hide _ c)

/-- A name that logs in with fields of its own. -/
example : readLogfmt (logfmt [(EVENT, .text (js "auth.login_fail")), (⟨js "user", by decide +kernel⟩, .text (js "x ip=1.2.3.4"))]) =
    some [(js "event", js "auth.login_fail"), (js "user", js "x ip=1.2.3.4")] := by decide +kernel

/-! ### The audit file -/

/-- A call of `audit`, with what the file system lets through: the renaming, and so many bytes of the line. -/
structure AuditCall where
  ts : JsString
  event : JsString
  fields : List (FieldName × Value)
  renames : Bool
  appended : ℕ

/-- `JSON.stringify({ ts, event, ...redact(fields) }) + "\n"` -/
def AuditCall.line (c : AuditCall) : List UInt8 :=
  encodeUtf8 (jsonText ((redact c.fields).foldl (fun rec e => OMap.setEntries e.1 e.2 rec)
    [(TS, .text c.ts), (EVENT, .text c.event)]) ++ [0x0a])

/-- What `appendFileSync` writes of the line, which is not the whole when it fails. -/
def AuditCall.piece (c : AuditCall) : List UInt8 := c.line.take c.appended

/-- The audit file, and the one it was renamed to. -/
structure AuditFiles where
  file : List UInt8
  old : List UInt8

namespace AuditFiles

/-- `audit`, after `emit`. -/
def audit (auditMaxBytes : ℕ) (f : AuditFiles) (c : AuditCall) : AuditFiles :=
  if 0 < f.file.length ∧ auditMaxBytes < f.file.length + c.line.length then
    if c.renames then ⟨c.piece, f.file⟩ else f
  else { f with file := f.file ++ c.piece }

def run (auditMaxBytes : ℕ) (calls : List AuditCall) : AuditFiles := calls.foldl (audit auditMaxBytes) ⟨[], []⟩

/-- How many of the pieces are not empty. -/
def lineCount (pieces : List (List UInt8)) : ℕ := pieces.countP (· ≠ [])

/-- What each of the calls leaves of its line: what is appended, and nothing when the file has to be renamed before that
and is not. -/
inductive Left (auditMaxBytes : ℕ) : List AuditCall → List (List UInt8) → Prop
  | start : Left auditMaxBytes [] []
  | appended {calls : List AuditCall} {pieces : List (List UInt8)} (h : Left auditMaxBytes calls pieces)
      (c : AuditCall) : Left auditMaxBytes (calls ++ [c]) (pieces ++ [c.piece])
  | notRenamed {calls : List AuditCall} {pieces : List (List UInt8)} (h : Left auditMaxBytes calls pieces)
      {c : AuditCall} (hrenames : c.renames = false) (hfile : (run auditMaxBytes calls).file ≠ [])
      (hfull : auditMaxBytes < (run auditMaxBytes calls).file.length + c.line.length) :
      Left auditMaxBytes (calls ++ [c]) (pieces ++ [[]])

/-- The pieces in the two files are the last of what the calls leave; those before them are gone only when the old file and
one line are more than the bound; and a file over the bound is one piece. -/
structure Kept (auditMaxBytes : ℕ) (calls : List AuditCall) (f : AuditFiles) (gone old file : List (List UInt8)) : Prop where
  left : Left auditMaxBytes calls (gone ++ old ++ file)
  old_eq : f.old = old.flatten
  file_eq : f.file = file.flatten
  gone_full : gone = [] ∨ ∃ c ∈ calls, auditMaxBytes < f.old.length + c.line.length
  old_le : lineCount old ≤ 1 ∨ f.old.length ≤ auditMaxBytes
  file_le : lineCount file ≤ 1 ∨ f.file.length ≤ auditMaxBytes

variable {auditMaxBytes : ℕ} {calls : List AuditCall} {f : AuditFiles} {gone old file : List (List UInt8)}

private theorem kept_empty (auditMaxBytes : ℕ) : Kept auditMaxBytes [] ⟨[], []⟩ [] [] [] :=
  ⟨.start, rfl, rfl, Or.inl rfl, Or.inl (Nat.zero_le 1), Or.inl (Nat.zero_le 1)⟩

private theorem lineCount_append (as bs : List (List UInt8)) : lineCount (as ++ bs) = lineCount as + lineCount bs :=
  List.countP_append

private theorem lineCount_singleton (w : List UInt8) : lineCount [w] ≤ 1 := List.countP_le_length

private theorem lineCount_of_flatten {pieces : List (List UInt8)} (h : pieces.flatten = []) : lineCount pieces = 0 := by
  rw [lineCount, List.countP_eq_zero]
  intro w hw
  simp [List.flatten_eq_nil_iff.1 h w hw]

/-- One call more, and what it leaves. -/
private theorem Kept.audit (h : Kept auditMaxBytes calls (run auditMaxBytes calls) gone old file) (c : AuditCall) :
    ∃ gone' old' file',
      Kept auditMaxBytes (calls ++ [c]) ((run auditMaxBytes calls).audit auditMaxBytes c) gone' old' file' := by
  have hmem : c ∈ calls ++ [c] := List.mem_append_right calls List.mem_cons_self
  have hgone : gone = [] ∨ ∃ d ∈ calls ++ [c], auditMaxBytes < (run auditMaxBytes calls).old.length + d.line.length :=
    h.gone_full.imp_right fun ⟨d, hd, hlt⟩ => ⟨d, List.mem_append_left _ hd, hlt⟩
  unfold AuditFiles.audit
  split
  · rename_i hfull
    by_cases hrenames : c.renames = true
    · rw [if_pos hrenames]
      exact ⟨gone ++ old, file, [c.piece], h.left.appended c, h.file_eq, List.flatten_singleton.symm,
        Or.inr ⟨c, hmem, hfull.2⟩, h.file_le, Or.inl (lineCount_singleton _)⟩
    · -- nothing is appended
      rw [if_neg hrenames]
      have hleft := h.left.notRenamed (by simpa using hrenames) (List.length_pos_iff.1 hfull.1) hfull.2
      rw [List.append_assoc _ file] at hleft
      refine ⟨gone, old, file ++ [[]], hleft, h.old_eq, ?_, hgone, h.old_le, ?_⟩
      · rw [List.flatten_append, h.file_eq]
        simp
      · rw [lineCount_append]
        exact h.file_le
  · rename_i hroom
    have hleft := h.left.appended c
    rw [List.append_assoc _ file] at hleft
    refine ⟨gone, old, file ++ [c.piece], hleft, h.old_eq, ?_, hgone, h.old_le, ?_⟩
    · show (run auditMaxBytes calls).file ++ c.piece = (file ++ [c.piece]).flatten
      rw [h.file_eq, List.flatten_append, List.flatten_singleton]
    · by_cases hzero : (run auditMaxBytes calls).file = []
      · -- a file that was empty holds this piece only
        rw [lineCount_append, lineCount_of_flatten (h.file_eq.symm.trans hzero), Nat.zero_add]
        exact Or.inl (lineCount_singleton _)
      · refine Or.inr ?_
        have hpos := List.length_pos_iff.2 hzero
        have hpiece : c.piece.length ≤ c.line.length := List.length_take_le' _ _
        show ((run auditMaxBytes calls).file ++ c.piece).length ≤ auditMaxBytes
        rw [List.length_append]
        omega

/-- **The audit log.**  After any calls, whatever the file system lets through, the two files hold the last of what the
calls leave, in order: a line whole when it was appended, and in part when that failed.  What is before it is gone only
when the old file and one line more are over the bound; and a file with more than one line is not over it. -/
theorem audit_kept (auditMaxBytes : ℕ) (calls : List AuditCall) :
    ∃ gone old file, Kept auditMaxBytes calls (run auditMaxBytes calls) gone old file := by
  induction calls using List.reverseRecOn with
  | nil => exact ⟨[], [], [], kept_empty auditMaxBytes⟩
  | append_singleton calls c ih =>
    obtain ⟨gone, old, file, h⟩ := ih
    rw [run, List.foldl_append]
    exact h.audit c

end AuditFiles

end Log

end Servitals
