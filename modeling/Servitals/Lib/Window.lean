import Mathlib

/-!
# Sliding windows

A limit on how many events fall within a window of time: each event's time is entered in a list, and the next event
is let in while fewer than a bound of the times are younger than the window.  The list may forget times that are too
old: it `Stands` for the whole log as long as the young ones are in it, at any later time.
-/

namespace Window

/-- The times younger than the window `W` at the time `t`. -/
def recent (W t : ℤ) (l : List ℤ) : List ℤ := l.filter fun x => t - x < W

private theorem mem_recent {W t x : ℤ} {l : List ℤ} : x ∈ recent W t l ↔ x ∈ l ∧ t - x < W := by
  rw [recent, List.mem_filter, decide_eq_true_eq]

@[simp]
theorem recent_nil (W t : ℤ) : recent W t [] = [] := rfl

private theorem recent_append (W t : ℤ) (l l' : List ℤ) : recent W t (l ++ l') = recent W t l ++ recent W t l' :=
  List.filter_append ..

/-- A shorter window later looks at less. -/
private theorem recent_recent {V W t t' : ℤ} (hW : V ≤ W) (ht : t ≤ t') (l : List ℤ) :
    recent V t' (recent W t l) = recent V t' l := by
  rw [recent, recent, List.filter_filter]
  apply List.filter_congr
  intro x _
  rw [Bool.and_eq_left_iff_imp, decide_eq_true_eq, decide_eq_true_eq]
  omega

/-! ### Lists that forget -/

/-- From the time `c` on the list `v` says the same of the window as the log `l`. -/
def Stands (W c : ℤ) (v l : List ℤ) : Prop := ∀ t, c ≤ t → recent W t v = recent W t l

theorem Stands.refl (W c : ℤ) (l : List ℤ) : Stands W c l l := fun _ _ => rfl

theorem Stands.later {W c c' : ℤ} {v l : List ℤ} (h : Stands W c v l) (hc : c ≤ c') : Stands W c' v l :=
  fun t ht => h t (hc.trans ht)

/-- The young times and the new one stand for the log with the new one. -/
theorem Stands.push {W c t : ℤ} {v l : List ℤ} (h : Stands W c v l) (ht : c ≤ t) :
    Stands W t (recent W t v ++ [t]) (l ++ [t]) := by
  intro t' ht'
  rw [recent_append, recent_append, recent_recent le_rfl ht', h t' (ht.trans ht')]

/-- A list whose times are all past a longer window can be forgotten. -/
theorem Stands.forget {V W c t : ℤ} {v l : List ℤ} (h : Stands W c v l) (ht : c ≤ t) (hW : W ≤ V)
    (hold : ∀ x ∈ v, ¬ t - x < V) : Stands W t [] l := by
  intro t' ht'
  rw [← h t' (ht.trans ht'), recent_nil, eq_comm, List.eq_nil_iff_forall_not_mem]
  intro x hx
  obtain ⟨hxv, hx⟩ := mem_recent.1 hx
  exact hold x hxv (by omega)

/-! ### The bound -/

/-- No window of the length `W` holds more than `n` of the times. -/
def Limited (W : ℤ) (n : ℕ) (l : List ℤ) : Prop := ∀ a, (l.countP fun x => a ≤ x ∧ x < a + W) ≤ n

theorem limited_nil (W : ℤ) (n : ℕ) : Limited W n [] := fun _ => Nat.zero_le n

/-- An event let in while fewer than `n` are young keeps the bound. -/
theorem Limited.push {W t : ℤ} {n : ℕ} {l : List ℤ} (h : Limited W n l) (hl : ∀ x ∈ l, x ≤ t)
    (hn : (recent W t l).length < n) : Limited W n (l ++ [t]) := by
  intro a
  rw [List.countP_append]
  by_cases ha : a ≤ t ∧ t < a + W
  · have hsub : (l.countP fun x => a ≤ x ∧ x < a + W) ≤ (recent W t l).length := by
      rw [recent, ← List.countP_eq_length_filter]
      apply List.countP_mono_left
      intro x hx hax
      rw [decide_eq_true_eq] at hax ⊢
      have := hl x hx
      omega
    have hone : ([t].countP fun x => a ≤ x ∧ x < a + W) ≤ 1 := List.countP_le_length
    omega
  · have hzero : ([t].countP fun x => a ≤ x ∧ x < a + W) = 0 := by
      rw [List.countP_eq_zero]
      intro x hx
      rw [List.mem_singleton] at hx
      rw [hx, decide_eq_true_eq]
      exact ha
    rw [hzero]
    exact h a

end Window
