import Mathlib

/-!
# Keys with an overlap

One key is current.  When it is replaced it keeps working for a while, its window: a window that begins at `u` is over
at `stop u`.  A key replaced while a window is open does not get one of its own.  A key that stopped being current at
`u` works no longer from `stop u` on (`not_works_of_replaced`).
-/

namespace Overlap

variable {α τ : Type*} [LinearOrder τ]

/-- The current key, and the last key that got a window, with the time it began. -/
structure Keys (α τ : Type*) where
  newest : α
  window : Option (α × τ)

namespace Keys

variable (stop : τ → τ)

/-- Is a window open? -/
def overlaps (k : Keys α τ) (t : τ) : Bool := k.window.any fun w => decide (t < stop w.2)

/-- The key is replaced by `x` at `t`. -/
def replace (k : Keys α τ) (t : τ) (x : α) : Keys α τ :=
  ⟨x, if k.overlaps stop t then k.window else some (k.newest, t)⟩

/-- The key `x` works at `t`. -/
def Works (k : Keys α τ) (t : τ) (x : α) : Prop := x = k.newest ∨ ∃ u, k.window = some (x, u) ∧ t < stop u

/-- A list of replacements, each at its time. -/
def run (k : Keys α τ) (rs : List (τ × α)) : Keys α τ := rs.foldl (fun k r => k.replace stop r.1 r.2) k

theorem run_append (k : Keys α τ) (rs qs : List (τ × α)) : k.run stop (rs ++ qs) = (k.run stop rs).run stop qs :=
  List.foldl_append

/-- The window after a replacement is the one before, or begins there. -/
private theorem window_replace (k : Keys α τ) (t : τ) (x : α) :
    (k.replace stop t x).window = k.window ∨ (k.replace stop t x).window = some (k.newest, t) := by
  unfold replace
  dsimp only
  split
  · exact Or.inl rfl
  · exact Or.inr rfl

/-- No window began after the last replacement. -/
private theorem begun_le {k : Keys α τ} {u : τ} (hk : ∀ w ∈ k.window, w.2 ≤ u) {rs : List (τ × α)}
    (hrs : ∀ r ∈ rs, r.1 ≤ u) :
    ∀ w ∈ (k.run stop rs).window, w.2 ≤ u := by
  induction rs generalizing k with
  | nil => exact hk
  | cons r rs ih =>
    refine ih (fun w hw => ?_) fun q hq => hrs q (List.mem_cons_of_mem _ hq)
    rcases k.window_replace stop r.1 r.2 with heq | heq
    · exact hk w (heq ▸ hw)
    · rw [heq, Option.mem_some_iff] at hw
      rw [← hw]
      exact hrs r List.mem_cons_self

/-- A key that is not current and not set again has at most the window it has. -/
private theorem window_of_replaced {k : Keys α τ} {x : α} {u : τ} (hne : k.newest ≠ x)
    (hk : ∀ v, k.window = some (x, v) → v ≤ u) {rs : List (τ × α)} (hrs : ∀ r ∈ rs, r.2 ≠ x) :
    (k.run stop rs).newest ≠ x ∧ ∀ v, (k.run stop rs).window = some (x, v) → v ≤ u := by
  induction rs generalizing k with
  | nil => exact ⟨hne, hk⟩
  | cons r rs ih =>
    refine ih (hrs r List.mem_cons_self) (fun v hv => ?_) fun q hq => hrs q (List.mem_cons_of_mem _ hq)
    rcases k.window_replace stop r.1 r.2 with heq | heq
    · exact hk v (heq ▸ hv)
    · rw [heq, Option.some.injEq, Prod.mk.injEq] at hv
      exact absurd hv.1 hne

variable {stop}

/-- **A key that stopped being current at `u`**, and is never set again, does not work from `stop u` on. -/
theorem not_works_of_replaced (hstop : Monotone stop) {k : Keys α τ} {u t : τ} (hk : ∀ w ∈ k.window, w.2 ≤ u)
    {pre post : List (τ × α)} (hpre : ∀ r ∈ pre, r.1 ≤ u) {new : α}
    (hnew : ∀ r ∈ (u, new) :: post, r.2 ≠ (k.run stop pre).newest) (ht : stop u ≤ t) :
    ¬ (k.run stop (pre ++ (u, new) :: post)).Works stop t (k.run stop pre).newest := by
  have hbegun := begun_le stop hk hpre
  have hfirst : ∀ v, ((k.run stop pre).replace stop u new).window = some ((k.run stop pre).newest, v) → v ≤ u := by
    intro v hv
    rcases (k.run stop pre).window_replace stop u new with heq | heq
    · exact hbegun _ (heq ▸ hv)
    · rw [heq, Option.some.injEq, Prod.mk.injEq] at hv
      exact hv.2.symm.le
  obtain ⟨hnot, hwindow⟩ := window_of_replaced stop (hnew (u, new) List.mem_cons_self) hfirst
    fun r hr => hnew r (List.mem_cons_of_mem _ hr)
  rw [run_append]
  rintro (heq | ⟨v, hv, hlt⟩)
  · exact hnot heq.symm
  · exact absurd (hlt.trans_le (hstop (hwindow v hv))) (not_lt.2 ht)

end Keys

end Overlap
