import Servitals.Lib.Runs

/-!
# Runs that agree on some of their inputs

Two runs of one machine have the same inputs of a kind (`mine`), in the same order, and any others between them.  When
an equivalence of states is kept by every other input, and by each input of the kind taken on both sides at once, the
runs end in equivalent states (`related_run`).
-/

namespace Runs

variable {σ ι : Type*} {step : σ → ι → σ} {ok : σ → ι → Prop} {mine : ι → Bool} {I : σ → Prop} {R : σ → σ → Prop}

/-- Inputs that are not of the kind lead to an equivalent state. -/
private theorem related_others (hR : Equivalence R) (hkeep : ∀ s x, I s → ok s x → I (step s x))
    (hother : ∀ s x, I s → ok s x → mine x = false → R s (step s x)) {s : σ} {xs : List ι}
    (hxs : ∀ x ∈ xs, mine x = false) (hs : I s) (hmeets : Meets step ok s xs) : R s (run step s xs) := by
  induction xs generalizing s with
  | nil => exact hR.refl s
  | cons x xs ih =>
    have hx := hother s x hs hmeets.1 (hxs x List.mem_cons_self)
    exact hR.trans hx (ih (fun y hy => hxs y (List.mem_cons_of_mem x hy)) (hkeep s x hs hmeets.1) hmeets.2)

theorem related_run (hR : Equivalence R) (hkeep : ∀ s x, I s → ok s x → I (step s x))
    (hother : ∀ s x, I s → ok s x → mine x = false → R s (step s x))
    (hmine : ∀ s s' x, I s → I s' → ok s x → ok s' x → mine x = true → R s s' → R (step s x) (step s' x))
    {s s' : σ} {xs ys : List ι} (hsame : xs.filter mine = ys.filter mine) (hs : I s) (hs' : I s')
    (hxs : Meets step ok s xs) (hys : Meets step ok s' ys) (h : R s s') : R (run step s xs) (run step s' ys) := by
  induction xs generalizing s s' ys with
  | nil =>
    have hnone : ∀ y ∈ ys, mine y = false := by
      intro y hy
      exact Bool.not_eq_true _ ▸ List.filter_eq_nil_iff.1 hsame.symm y hy
    exact hR.trans h (related_others hR hkeep hother hnone hs' hys)
  | cons x xs ih =>
    by_cases hx : mine x = true
    · -- the other run comes to the same input after some others
      rw [List.filter_cons_of_pos hx] at hsame
      obtain ⟨pre, post, rfl, hpre, -, hpost⟩ := List.filter_eq_cons_iff.1 hsame.symm
      obtain ⟨hmeets, hok, hrest⟩ := meets_append.1 hys
      have hnone : ∀ y ∈ pre, mine y = false := by
        intro y hy
        exact Bool.not_eq_true _ ▸ hpre y hy
      have hI := hmeets.invariant hkeep hs'
      have hmeet := hR.trans h (related_others hR hkeep hother hnone hs' hmeets)
      rw [run_append, run_cons, run_cons]
      exact ih hpost.symm (hkeep s x hs hxs.1) (hkeep _ x hI hok) hxs.2 hrest (hmine s _ x hs hI hxs.1 hok hx hmeet)
    · rw [List.filter_cons_of_neg hx] at hsame
      rw [Bool.not_eq_true] at hx
      exact ih hsame (hkeep s x hs hxs.1) hs' hxs.2 hys (hR.trans (hR.symm (hother s x hs hxs.1 hx)) h)

end Runs
