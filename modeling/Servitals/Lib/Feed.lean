import Mathlib

/-!
# Parsers fed in pieces

A cutter takes the first item off a buffer, when there is a whole one.  What it cuts does not depend on what comes after
it, and is at least something.  Taking off all items of a buffer, keeping the rest, and going on with it when more comes
gives the items of the whole (`parse_append`), however it came in pieces.
-/

/-- What takes the first item off a buffer. -/
structure Cutter (α β : Type*) where
  cut : List α → Option (β × List α)
  shorter : ∀ {buf x rest}, cut buf = some (x, rest) → rest.length < buf.length
  stable : ∀ {buf x rest}, cut buf = some (x, rest) → ∀ more, cut (buf ++ more) = some (x, rest ++ more)

namespace Cutter

variable {α β : Type*} (c : Cutter α β)

/-- The items of a buffer, and what is left of it. -/
def parse (buf : List α) : List β × List α :=
  match h : c.cut buf with
  | none => ([], buf)
  | some (x, rest) =>
    have := c.shorter h
    (x :: (parse rest).1, (parse rest).2)
termination_by buf.length

theorem parse_of_none {buf : List α} (h : c.cut buf = none) : c.parse buf = ([], buf) := by
  rw [parse]
  split
  · rfl
  · rename_i heq
    rw [h] at heq
    cases heq

theorem parse_of_some {buf rest : List α} {x : β} (h : c.cut buf = some (x, rest)) :
    c.parse buf = (x :: (c.parse rest).1, (c.parse rest).2) := by
  rw [parse]
  split
  · rename_i heq
    rw [h] at heq
    cases heq
  · rename_i heq
    rw [h] at heq
    cases heq
    rfl

/-- A fact of every buffer: it holds when nothing can be cut, and when it holds of what a cut leaves. -/
theorem induct {P : List α → Prop} (hnone : ∀ buf, c.cut buf = none → P buf)
    (hsome : ∀ buf x rest, c.cut buf = some (x, rest) → P rest → P buf) (buf : List α) : P buf := by
  induction hn : buf.length using Nat.strong_induction_on generalizing buf with
  | _ n ih =>
    cases h : c.cut buf with
    | none => exact hnone buf h
    | some y => exact hsome buf y.1 y.2 h (ih _ (hn ▸ c.shorter h) y.2 rfl)

theorem parse_append (buf more : List α) :
    c.parse (buf ++ more) =
      ((c.parse buf).1 ++ (c.parse ((c.parse buf).2 ++ more)).1, (c.parse ((c.parse buf).2 ++ more)).2) := by
  induction buf using c.induct with
  | hnone buf h => rw [c.parse_of_none h, List.nil_append]
  | hsome buf x rest h ih => rw [c.parse_of_some (c.stable h more), ih, c.parse_of_some h, List.cons_append]

end Cutter
