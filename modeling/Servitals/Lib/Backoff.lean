import Mathlib

/-!
# Waits that double

A wait that begins at `first`, doubles each time things go wrong and stops at `cap`.  What the machine keeps is one
number (`wait`); what it means is told by the outcomes so far (`count`): how often things went wrong since they last went
well.
-/

namespace Backoff

/-- What an outcome does to the wait: it grows, stays or is over. -/
inductive Outcome
  | worse
  | same
  | better
  deriving DecidableEq

/-- One more time that things went wrong, none, or all of them forgotten. -/
def Outcome.tally (n : ℕ) : Outcome → ℕ
  | .worse => n + 1
  | .same => n
  | .better => 0

/-- How often things went wrong since they last went well. -/
def count (outcomes : List Outcome) : ℕ := outcomes.foldl Outcome.tally 0

@[simp]
theorem count_nil : count [] = 0 := rfl

@[simp]
theorem count_concat (outcomes : List Outcome) (o : Outcome) : count (outcomes ++ [o]) = o.tally (count outcomes) := by
  simp [count]

section

variable (cap first : ℕ)

/-- The wait after one more failure. -/
def grow : Option ℕ → ℕ
  | none => min cap first
  | some w => min cap (2 * w)

/-- The machine: it remembers its last wait, and nothing when all is well. -/
def wait (w : Option ℕ) : Outcome → Option ℕ
  | .worse => some (grow cap first w)
  | .same => w
  | .better => none

/-- The wait after `n` failures. -/
def nth : ℕ → Option ℕ
  | 0 => none
  | n + 1 => some (min cap (first * 2 ^ n))

@[simp]
theorem nth_zero : nth cap first 0 = none := rfl

@[simp]
theorem nth_succ (n : ℕ) : nth cap first (n + 1) = some (min cap (first * 2 ^ n)) := rfl

/-- A doubled wait under the cap is the doubled wait before it was capped. -/
private theorem min_double (w : ℕ) : min cap (2 * min cap w) = min cap (2 * w) := by omega

theorem grow_nth (n : ℕ) : grow cap first (nth cap first n) = min cap (first * 2 ^ n) := by
  cases n with
  | zero => simp [grow]
  | succ n =>
    have hpow : 2 * (first * 2 ^ n) = first * 2 ^ (n + 1) := by ring
    simp only [nth_succ, grow]
    rw [min_double, hpow]

/-- One step of the machine, told by the number of failures. -/
theorem wait_nth (n : ℕ) (o : Outcome) : wait cap first (nth cap first n) o = nth cap first (o.tally n) := by
  cases o with
  | worse => simp [wait, Outcome.tally, grow_nth]
  | same => rfl
  | better => rfl

end

end Backoff
