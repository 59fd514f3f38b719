import Mathlib

/-!
# Runs of a machine

A machine is a step function from a state and an input to the next state; a run is a list of inputs.  `Meets` says
that every step of a run meets a condition on the state before it and its input.  The rules: an invariant kept by
every step that meets the condition holds after the run (`Meets.invariant`), and what the invariant and the
condition give of one step holds of every step of the run (`Meets.each`).
-/

namespace Runs

variable {σ ι : Type*}

/-- The state after a run. -/
def run (step : σ → ι → σ) (s : σ) (as : List ι) : σ := as.foldl step s

@[simp]
theorem run_nil (step : σ → ι → σ) (s : σ) : run step s [] = s := rfl

@[simp]
theorem run_cons (step : σ → ι → σ) (s : σ) (a : ι) (as : List ι) :
    run step s (a :: as) = run step (step s a) as := rfl

theorem run_append (step : σ → ι → σ) (s : σ) (as bs : List ι) :
    run step s (as ++ bs) = run step (run step s as) bs :=
  List.foldl_append

theorem run_snoc (step : σ → ι → σ) (s : σ) (as : List ι) (a : ι) :
    run step s (as ++ [a]) = step (run step s as) a := by
  rw [run_append]; rfl

/-- Every step of the run meets `ok`. -/
def Meets (step : σ → ι → σ) (ok : σ → ι → Prop) : σ → List ι → Prop
  | _, [] => True
  | s, a :: as => ok s a ∧ Meets step ok (step s a) as

variable {step : σ → ι → σ} {ok ok' : σ → ι → Prop}

instance Meets.decidable [∀ s a, Decidable (ok s a)] :
    ∀ (s : σ) (as : List ι), Decidable (Meets step ok s as)
  | _, [] => .isTrue trivial
  | s, a :: as => @instDecidableAnd _ _ _ (Meets.decidable (step s a) as)

theorem meets_append {s : σ} {as bs : List ι} :
    Meets step ok s (as ++ bs) ↔ Meets step ok s as ∧ Meets step ok (run step s as) bs := by
  induction as generalizing s with
  | nil => simp [Meets]
  | cons a as ih => simp only [List.cons_append, Meets, ih, run_cons, and_assoc]

theorem Meets.mono {s : σ} {as : List ι} (h : Meets step ok s as) (hok : ∀ s a, ok s a → ok' s a) :
    Meets step ok' s as := by
  induction as generalizing s with
  | nil => trivial
  | cons a as ih => exact ⟨hok _ _ h.1, ih h.2⟩

theorem Meets.and {s : σ} {as : List ι} (h : Meets step ok s as) (h' : Meets step ok' s as) :
    Meets step (fun s a => ok s a ∧ ok' s a) s as := by
  induction as generalizing s with
  | nil => trivial
  | cons a as ih => exact ⟨⟨h.1, h'.1⟩, ih h.2 h'.2⟩

/-- A condition on the inputs alone. -/
theorem meets_of_forall {p : ι → Prop} {s : σ} {as : List ι} (h : ∀ a ∈ as, p a) : Meets step (fun _ a => p a) s as := by
  induction as generalizing s with
  | nil => trivial
  | cons a as ih => exact ⟨h a List.mem_cons_self, ih fun b hb => h b (List.mem_cons_of_mem _ hb)⟩

theorem meets_true {s : σ} {as : List ι} : Meets step (fun _ _ => True) s as := by
  induction as generalizing s with
  | nil => trivial
  | cons a as ih => exact ⟨trivial, ih⟩

/-- What every step that meets the condition keeps holds after the run. -/
theorem Meets.invariant {I : σ → Prop} (hstep : ∀ s a, I s → ok s a → I (step s a)) {s : σ} {as : List ι}
    (h : Meets step ok s as) (hs : I s) : I (run step s as) := by
  induction as generalizing s with
  | nil => exact hs
  | cons a as ih => exact ih h.2 (hstep s a hs h.1)

/-- An invariant of the machine holds after every run. -/
theorem invariant {I : σ → Prop} (hstep : ∀ s a, I s → I (step s a)) {s : σ} (hs : I s) (as : List ι) :
    I (run step s as) :=
  have h : Meets step (fun _ _ => True) s as := meets_true
  h.invariant (fun s a hi _ => hstep s a hi) hs

/-- A fact of one step, from the invariant before it and its condition, holds of each step of the run. -/
theorem Meets.each {I : σ → Prop} {Q : σ → ι → Prop} (hstep : ∀ s a, I s → ok s a → I (step s a))
    (hQ : ∀ s a, I s → ok s a → Q s a) {s : σ} {as : List ι} (h : Meets step ok s as) (hs : I s) :
    Meets step Q s as := by
  induction as generalizing s with
  | nil => trivial
  | cons a as ih => exact ⟨hQ s a hs h.1, ih h.2 (hstep s a hs h.1)⟩

/-- Two conditions that say the same of a step, where the invariant holds that each keeps, say the same of a run. -/
theorem meets_congr {I : σ → Prop} (hstep : ∀ s a, I s → ok s a → I (step s a))
    (hiff : ∀ s a, I s → (ok s a ↔ ok' s a)) {s : σ} {as : List ι} (hs : I s) :
    Meets step ok s as ↔ Meets step ok' s as :=
  ⟨fun h => h.each hstep (fun s a hs ho => (hiff s a hs).1 ho) hs,
    fun h => h.each (fun s a hs ho => hstep s a hs ((hiff s a hs).2 ho)) (fun s a hs ho => (hiff s a hs).2 ho) hs⟩

/-- The step of a run at a given place. -/
theorem Meets.at {s : σ} {as : List ι} (h : Meets step ok s as) {pre post : List ι} {a : ι}
    (e : as = pre ++ a :: post) : ok (run step s pre) a := by
  subst e
  exact (meets_append.1 h).2.1

/-- What holds at every place of a run is met by the run. -/
theorem meets_of_at {s : σ} {as : List ι} (h : ∀ pre a post, as = pre ++ a :: post → ok (run step s pre) a) :
    Meets step ok s as := by
  induction as generalizing s with
  | nil => trivial
  | cons a as ih => exact ⟨h [] a as rfl, ih fun pre b post e => h (a :: pre) b post (congrArg (a :: ·) e)⟩

end Runs
