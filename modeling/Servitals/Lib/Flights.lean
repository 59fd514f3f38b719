import Mathlib.Data.List.Induction
import Mathlib.Data.List.Sublists

/-!
# Flights

A list of marks spells flights when it reads (attempt x 0, attempt x 1, …, finish x)*, possibly ending inside a flight:
one thing at a time is tried, one time or more, and let go before the next.  `next` reads one mark; `read_eq_some`
turns the reading of a whole list into the list of its flights.
-/

namespace Flights

inductive Mark (α : Type*)
  | attempt (x : α) (i : ℕ)
  | finish (x : α)

variable {α : Type*}

/-- A flight: what was tried, and how often. -/
structure Flight (α : Type*) where
  item : α
  tries : ℕ
  tried : 0 < tries

namespace Flight

/-- The marks of a flight under way. -/
def marks (f : Flight α) : List (Mark α) := (List.range f.tries).map (Mark.attempt f.item)

/-- The marks of a flight that ended. -/
def closed (f : Flight α) : List (Mark α) := f.marks ++ [.finish f.item]

/-- The flight with one more attempt. -/
def again (f : Flight α) : Flight α := ⟨f.item, f.tries + 1, f.tries.succ_pos⟩

theorem marks_again (f : Flight α) : f.again.marks = f.marks ++ [.attempt f.item f.tries] := by
  simp [marks, again, List.range_succ]

end Flight

/-- The marks spell flights: those that ended, then the one under way, if any. -/
def Spells (ms : List (Mark α)) (past : List (Flight α)) (inside : Option (Flight α)) : Prop :=
  ms = past.flatMap Flight.closed ++ inside.elim [] Flight.marks

def Mark.first? : Mark α → Option α
  | attempt x i => if i = 0 then some x else none
  | finish _ => none

/-- What is tried for the first time, in order. -/
def firsts (ms : List (Mark α)) : List α := ms.filterMap Mark.first?

theorem firsts_append (ms ns : List (Mark α)) : firsts (ms ++ ns) = firsts ms ++ firsts ns :=
  List.filterMap_append

private theorem firsts_marks (f : Flight α) : firsts f.marks = [f.item] := by
  obtain ⟨x, n, hn⟩ := f
  cases n with
  | zero => exact absurd hn (lt_irrefl 0)
  | succ n =>
    have hlater : (((List.range n).map Nat.succ).map (Mark.attempt x)).filterMap Mark.first? = [] := by
      simp [Mark.first?]
    rw [Flight.marks, List.range_succ_eq_map, List.map_cons, firsts, List.filterMap_cons, hlater]
    rfl

private theorem firsts_closed (f : Flight α) : firsts f.closed = [f.item] := by
  rw [Flight.closed, firsts_append, firsts_marks]
  rfl

/-- The things flown are those tried for the first time. -/
theorem Spells.firsts {ms : List (Mark α)} {past : List (Flight α)} {inside : Option (Flight α)}
    (h : Spells ms past inside) :
    firsts ms = (past ++ inside.toList).map Flight.item := by
  have hpast : Flights.firsts (past.flatMap Flight.closed) = past.map Flight.item := by
    clear h
    induction past with
    | nil => rfl
    | cons f past ih =>
      rw [List.flatMap_cons, firsts_append, firsts_closed, ih]
      rfl
  rw [show ms = _ from h, firsts_append, hpast, List.map_append]
  cases inside with
  | none => rfl
  | some f => exact congrArg _ (firsts_marks f)

/-! ### Reading -/

section

variable [DecidableEq α]

/-- Reads one mark; the state is what is tried, and how often it was. -/
def next : Option (α × ℕ) → Mark α → Option (Option (α × ℕ))
  | none, .attempt x i => if i = 0 then some (some (x, 1)) else none
  | some p, .attempt x i => if p = (x, i) then some (some (x, i + 1)) else none
  | some p, .finish x => if p.1 = x then some none else none
  | none, .finish _ => none

/-- Reads a list of marks. -/
def read (p : Option (α × ℕ)) (ms : List (Mark α)) : Option (Option (α × ℕ)) := ms.foldlM next p

@[simp]
theorem read_nil (p : Option (α × ℕ)) : read p [] = some p := rfl

theorem read_snoc (p : Option (α × ℕ)) (ms : List (Mark α)) (m : Mark α) :
    read p (ms ++ [m]) = (read p ms).bind fun q => next q m := by
  rw [read, List.foldlM_append, ← read]
  cases read p ms with
  | none => rfl
  | some q => simp

/-- A list that can be read spells flights, and ends inside one exactly when the reading says so. -/
theorem read_eq_some {ms : List (Mark α)} {p : Option (α × ℕ)} (h : read none ms = some p) :
    ∃ past inside, Spells ms past inside ∧ inside.map (fun f => (f.item, f.tries)) = p := by
  induction ms using List.reverseRecOn generalizing p with
  | nil =>
    cases h
    exact ⟨[], none, rfl, rfl⟩
  | append_singleton ms m ih =>
    rw [read_snoc, Option.bind_eq_some_iff] at h
    obtain ⟨q, hq, hm⟩ := h
    obtain ⟨past, inside, hms, rfl⟩ := ih hq
    have hms : ms = _ := hms
    cases inside with
    | none =>
      cases m with
      | attempt x i =>
        rw [Option.map_none, next, Option.ite_none_right_eq_some] at hm
        obtain ⟨rfl, hm⟩ := hm
        cases hm
        refine ⟨past, some ⟨x, 1, Nat.one_pos⟩, ?_, rfl⟩
        rw [Spells, hms]
        simp [Flight.marks]
      | finish x => cases hm
    | some f =>
      cases m with
      | attempt x i =>
        rw [Option.map_some, next, Option.ite_none_right_eq_some] at hm
        obtain ⟨hf, hm⟩ := hm
        cases hf
        cases hm
        refine ⟨past, some f.again, ?_, rfl⟩
        rw [Spells, hms, Option.elim_some, Option.elim_some, f.marks_again, List.append_assoc]
      | finish x =>
        rw [Option.map_some, next, Option.ite_none_right_eq_some] at hm
        obtain ⟨hf, hm⟩ := hm
        cases hf
        cases hm
        refine ⟨past ++ [f], none, ?_, rfl⟩
        rw [Spells, hms]
        simp [Flight.closed]

end

end Flights
