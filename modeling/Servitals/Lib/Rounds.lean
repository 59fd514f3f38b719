import Mathlib

/-!
# Rounds

A list of marks with times spells rounds when it reads (start again* stop)*, possibly ending inside a round, and
consecutive start and again marks of one round are `gap` apart.  `next` reads one mark; `read_eq_some` turns the
reading of a whole list into the list of its rounds.
-/

namespace Rounds

inductive Mark
  | start | again | stop
  deriving DecidableEq

variable {τ : Type*} (gap : τ → τ → Prop)

/-- A round under way: the time it started and those it was marked again at. -/
structure Round where
  first : τ
  rest : List τ
  spaced : (first :: rest).IsChain gap

/-- A round with the time it stopped. -/
structure Closed extends Round gap where
  stopped : τ

namespace Round

variable {gap}

def marks (r : Round gap) : List (Mark × τ) := (.start, r.first) :: r.rest.map fun t => (.again, t)

/-- The time of the last mark. -/
def latest (r : Round gap) : τ := (r.first :: r.rest).getLast (List.cons_ne_nil _ _)

/-- The round marked again at `t`. -/
def again (r : Round gap) (t : τ) (h : gap r.latest t) : Round gap where
  first := r.first
  rest := r.rest ++ [t]
  spaced := by
    rw [← List.cons_append, List.isChain_append]
    refine ⟨r.spaced, List.isChain_singleton t, ?_⟩
    intro x hx y hy
    rw [List.getLast?_eq_some_getLast (List.cons_ne_nil _ _), Option.mem_some_iff] at hx
    cases hy
    rw [← hx]
    exact h

theorem marks_again (r : Round gap) (t : τ) (h : gap r.latest t) :
    (r.again t h).marks = r.marks ++ [(.again, t)] := by
  simp [marks, again]

private theorem latest_again (r : Round gap) (t : τ) (h : gap r.latest t) : (r.again t h).latest = t := by
  simp [latest, again]

end Round

def Closed.marks {gap : τ → τ → Prop} (r : Closed gap) : List (Mark × τ) :=
  r.toRound.marks ++ [(.stop, r.stopped)]

/-- `ms` spells rounds: the closed ones, then the one it ends in, if any. -/
def Spells (ms : List (Mark × τ)) (inside : Option (Round gap)) : Prop :=
  ∃ closed : List (Closed gap), ms = closed.flatMap Closed.marks ++ inside.elim [] Round.marks

variable [DecidableRel gap]

/-- Reads one mark; the state is the time of the last mark of the round under way. -/
def next : Option τ → Mark × τ → Option (Option τ)
  | none, (.start, t) => some (some t)
  | some l, (.again, t) => if gap l t then some (some t) else none
  | some _, (.stop, _) => some none
  | _, _ => none

theorem next_again (l t : τ) : next gap (some l) (.again, t) = if gap l t then some (some t) else none := rfl

/-- Reads a list of marks. -/
def read (p : Option τ) (ms : List (Mark × τ)) : Option (Option τ) := ms.foldlM (next gap) p

@[simp]
theorem read_nil (p : Option τ) : read gap p [] = some p := rfl

theorem read_append (p : Option τ) (ms ns : List (Mark × τ)) :
    read gap p (ms ++ ns) = (read gap p ms).bind fun q => read gap q ns :=
  List.foldlM_append

theorem read_snoc (p : Option τ) (ms : List (Mark × τ)) (m : Mark × τ) :
    read gap p (ms ++ [m]) = (read gap p ms).bind fun q => next gap q m := by
  rw [read_append]
  cases read gap p ms with
  | none => rfl
  | some q => simp [read]

/-- What can be read with one gap can be read with a wider one. -/
theorem read_mono {gap' : τ → τ → Prop} [DecidableRel gap'] (h : ∀ a b, gap a b → gap' a b) {p q : Option τ}
    {ms : List (Mark × τ)} (hr : read gap p ms = some q) : read gap' p ms = some q := by
  induction ms using List.reverseRecOn generalizing q with
  | nil => exact hr
  | append_singleton ms m ih =>
    rw [read_snoc, Option.bind_eq_some_iff] at hr
    obtain ⟨r, hr, hm⟩ := hr
    rw [read_snoc, ih hr, Option.bind_some]
    obtain ⟨mark, t⟩ := m
    cases r with
    | none => cases mark <;> exact hm
    | some l =>
      cases mark with
      | start => exact hm
      | again =>
        rw [next_again] at hm ⊢
        split at hm
        · rename_i hgap
          rwa [if_pos (h l t hgap)]
        · cases hm
      | stop => exact hm

/-- A list that can be read spells rounds, and ends inside one exactly when the reading says so. -/
theorem read_eq_some {ms : List (Mark × τ)} {p : Option τ} (h : read gap none ms = some p) :
    ∃ inside : Option (Round gap), Spells gap ms inside ∧ inside.map Round.latest = p := by
  induction ms using List.reverseRecOn generalizing p with
  | nil =>
    cases h
    exact ⟨none, ⟨[], rfl⟩, rfl⟩
  | append_singleton ms m ih =>
    rw [read_snoc, Option.bind_eq_some_iff] at h
    obtain ⟨q, hq, hm⟩ := h
    obtain ⟨inside, ⟨closed, hms⟩, hlast⟩ := ih hq
    obtain ⟨mark, t⟩ := m
    cases inside with
    | none =>
      cases hlast
      cases mark with
      | start =>
        cases hm
        refine ⟨some ⟨t, [], List.isChain_singleton t⟩, ⟨closed, ?_⟩, rfl⟩
        simp [hms, Round.marks]
      | again => cases hm
      | stop => cases hm
    | some r =>
      cases hlast
      cases mark with
      | start => cases hm
      | again =>
        rw [show (some r).map Round.latest = some r.latest from rfl, next_again] at hm
        split at hm
        · rename_i hgap
          cases hm
          refine ⟨some (r.again t hgap), ⟨closed, ?_⟩, by simp [Round.latest_again]⟩
          simp [hms, Round.marks_again]
        · cases hm
      | stop =>
        cases hm
        refine ⟨none, ⟨closed ++ [⟨r, t⟩], ?_⟩, rfl⟩
        simp [hms, Closed.marks]

end Rounds
