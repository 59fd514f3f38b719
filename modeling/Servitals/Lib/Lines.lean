import Mathlib

/-!
# Files of lines

A file that entries are appended to, each as a text and a line break, and that is read back line by line: an empty line
and one that does not parse are left out.  A write that is cut off leaves a torn text at the file's end.

`LineFormat` is what the reading rests on: a text has no line break and reads back, and torn texts never parse, also
several of them in one line.  What a file is read as stays so when a text is torn at its end (`Tailed.torn`); a line
appended to whole lines is read back (`Closed.append`).  A line appended to a torn text is one line with it.
-/

/-- How the entries are written, a line each; `nl` is the line break. -/
structure LineFormat (ε β : Type*) where
  nl : β
  text : ε → List β
  parse : List β → Option ε
  parse_text : ∀ e, parse (text e) = some e
  text_ne : ∀ e, text e ≠ []
  nl_notMem : ∀ e, nl ∉ text e
  parse_torn : ∀ ts : List (List β), ts.flatten ≠ [] → (∀ t ∈ ts, ∃ e, t <+: text e ∧ t ≠ text e) →
    parse ts.flatten = none

/-- What is left of a line whose write was cut off. -/
structure TornLine {ε β : Type*} (c : LineFormat ε β) where
  entry : ε
  left : List β
  isPrefix : left <+: c.text entry
  proper : left ≠ c.text entry

namespace LineFormat

variable {ε β : Type*} (c : LineFormat ε β)

/-- The entry of a line: none for an empty line, or one that does not parse. -/
def entry (line : List β) : Option ε := if line = [] then none else c.parse line

/-- An entry's line. -/
def line (e : ε) : List β := c.text e ++ [c.nl]

/-- The file of the entries, a line each. -/
def write (es : List ε) : List β := [c.nl].intercalate (es.map c.text) ++ [c.nl]

@[simp]
theorem entry_text (e : ε) : c.entry (c.text e) = some e := by rw [entry, if_neg (c.text_ne e), c.parse_text]

/-- The file is of whole lines. -/
def Closed (file : List β) : Prop := file = [] ∨ file.getLast? = some c.nl

/-- The file is of whole lines, then of torn texts. -/
def Tailed (file : List β) : Prop :=
  ∃ (body : List β) (ts : List (List β)), file = body ++ ts.flatten ∧ c.Closed body ∧
    ∀ t ∈ ts, ∃ e, t <+: c.text e ∧ t ≠ c.text e

private theorem closed_append_nl (file : List β) : c.Closed (file ++ [c.nl]) := Or.inr List.getLast?_concat

theorem closed_write (es : List ε) : c.Closed (c.write es) := closed_append_nl c _

variable {c} in
theorem Closed.tailed {file : List β} (h : c.Closed file) : c.Tailed file :=
  ⟨file, [], (List.append_nil _).symm, h, fun _ ht => absurd ht List.not_mem_nil⟩

/-! ### What is read -/

variable [DecidableEq β]

instance (file : List β) : Decidable (c.Closed file) := inferInstanceAs (Decidable (_ ∨ _))

/-- The entries of a file. -/
def read (file : List β) : List ε := (file.splitOn c.nl).filterMap c.entry

@[simp]
theorem read_nil : c.read [] = [] := by simp [read, entry]

/-- A line break parts what is read before it from what is read after it. -/
private theorem read_append_nl (file rest : List β) : c.read (file ++ c.nl :: rest) = c.read file ++ c.read rest := by
  rw [read, List.splitOn_append_cons_self, List.filterMap_append]
  rfl

private theorem read_of_notMem {line : List β} (h : c.nl ∉ line) : c.read line = (c.entry line).toList := by
  rw [read, List.splitOn_eq_singleton h]
  cases h : c.entry line <;> simp [h]

private theorem read_line (e : ε) : c.read (c.line e) = [e] := by
  rw [line, read_append_nl, read_of_notMem c (c.nl_notMem e), entry_text, read_nil]
  rfl

theorem read_write {es : List ε} (h : es ≠ []) : c.read (c.write es) = es := by
  have hall : ∀ l ∈ es.map c.text, c.nl ∉ l := by
    intro l hl
    obtain ⟨e, -, rfl⟩ := List.mem_map.1 hl
    exact c.nl_notMem e
  rw [write, read_append_nl, read_nil, List.append_nil, read,
    List.splitOn_intercalate c.nl hall (by simpa using h), List.filterMap_map]
  calc es.filterMap (c.entry ∘ c.text) = es.filterMap some := List.filterMap_congr fun e _ => c.entry_text e
    _ = es := List.filterMap_some

variable {c}

theorem Closed.read_append {file : List β} (h : c.Closed file) (rest : List β) :
    c.read (file ++ rest) = c.read file ++ c.read rest := by
  rcases h with rfl | h
  · simp
  · obtain ⟨init, rfl⟩ := List.getLast?_eq_some_iff.1 h
    rw [List.append_assoc, List.singleton_append, read_append_nl, read_append_nl, read_nil, List.append_nil]

/-- Torn texts hold no entry. -/
private theorem read_flatten {ts : List (List β)} (h : ∀ t ∈ ts, ∃ e, t <+: c.text e ∧ t ≠ c.text e) :
    c.read ts.flatten = [] := by
  have hnl : c.nl ∉ ts.flatten := by
    intro hmem
    obtain ⟨t, ht, hin⟩ := List.mem_flatten.1 hmem
    obtain ⟨e, hstart, -⟩ := h t ht
    exact c.nl_notMem e (hstart.subset hin)
  rw [read_of_notMem c hnl]
  by_cases hnil : ts.flatten = []
  · rw [hnil, entry, if_pos rfl]
    rfl
  · rw [entry, if_neg hnil, c.parse_torn ts hnil h]
    rfl

/-- A text torn at the file's end is not read, and leaves what is read. -/
theorem Tailed.torn {file : List β} (h : c.Tailed file) (t : TornLine c) :
    c.Tailed (file ++ t.left) ∧ c.read (file ++ t.left) = c.read file := by
  obtain ⟨body, ts, rfl, hbody, hts⟩ := h
  have hts' : ∀ u ∈ ts ++ [t.left], ∃ e, u <+: c.text e ∧ u ≠ c.text e := by
    intro u hu
    rcases List.mem_append.1 hu with hu | hu
    · exact hts u hu
    · exact List.mem_singleton.1 hu ▸ ⟨t.entry, t.isPrefix, t.proper⟩
  have hfile : body ++ ts.flatten ++ t.left = body ++ (ts ++ [t.left]).flatten := by simp
  rw [hfile, hbody.read_append, hbody.read_append, read_flatten hts, read_flatten hts']
  exact ⟨⟨body, _, rfl, hbody, hts'⟩, rfl⟩

/-- A line appended to whole lines is read back after what was read. -/
theorem Closed.append {file : List β} (h : c.Closed file) (e : ε) :
    c.Closed (file ++ c.line e) ∧ c.read (file ++ c.line e) = c.read file ++ [e] := by
  refine ⟨?_, by rw [h.read_append, read_line]⟩
  rw [line, ← List.append_assoc]
  exact closed_append_nl c _

end LineFormat
