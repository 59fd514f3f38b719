import Mathlib

/-!
# The latest value under a key

Entries that are said one after the other, of which the last one under a key holds: what a fold over them keeps, and what
is left of a sorted list of them when some are taken out.
-/

namespace Entries

variable {α σ κ ν μ : Type*} [DecidableEq κ]

/-- The value of the last entry under a key. -/
def last (es : List (κ × ν)) (k : κ) : Option ν := (es.reverse.find? fun e => e.1 = k).map Prod.snd

@[simp]
theorem last_nil (k : κ) : last ([] : List (κ × ν)) k = none := rfl

theorem last_append (es fs : List (κ × ν)) (k : κ) : last (es ++ fs) k = (last fs k).or (last es k) := by
  unfold last
  rw [List.reverse_append, List.find?_append]
  cases fs.reverse.find? fun e => e.1 = k <;> rfl

theorem last_singleton (e : κ × ν) (k : κ) : last [e] k = if e.1 = k then some e.2 else none := by
  unfold last
  by_cases hk : e.1 = k <;> simp [hk]

theorem last_cons (e : κ × ν) (es : List (κ × ν)) (k : κ) :
    last (e :: es) k = (last es k).or (if e.1 = k then some e.2 else none) := by
  have happend := last_append [e] es k
  rwa [last_singleton] at happend

theorem isSome_last {es : List (κ × ν)} {k : κ} : (last es k).isSome = true ↔ k ∈ es.map Prod.fst := by
  unfold last
  rw [Option.isSome_map, List.find?_isSome]
  simp

theorem last_eq_none {es : List (κ × ν)} {k : κ} (h : k ∉ es.map Prod.fst) : last es k = none := by
  rw [← Option.not_isSome_iff_eq_none, isSome_last]
  exact h

/-- Entries whose keys are taken out leave the others. -/
theorem last_filter (p : κ → Bool) (es : List (κ × ν)) (k : κ) :
    last (es.filter fun e => p e.1) k = if p k then last es k else none := by
  induction es with
  | nil => exact (ite_self _).symm
  | cons e es ih =>
    rw [List.filter_cons, last_cons]
    by_cases hk : e.1 = k
    · by_cases hp : p e.1 = true
      · rw [if_pos hp, last_cons, ih, hk, if_pos (hk ▸ hp)]
        simp only [if_pos (hk ▸ hp : p k = true)]
      · rw [if_neg hp, ih, if_neg (hk ▸ hp), if_neg (hk ▸ hp)]
    · by_cases hp : p e.1 = true
      · rw [if_pos hp, last_cons, ih, if_neg hk, Option.or_none, Option.or_none]
      · rw [if_neg hp, ih, if_neg hk, Option.or_none]

/-- Entries said under other keys, one for each. -/
theorem last_map {lab : Type*} [DecidableEq lab] {f : lab → κ} (hf : Function.Injective f) (es : List (lab × ν)) (x : lab) :
    last (es.map fun e => (f e.1, e.2)) (f x) = last es x := by
  induction es with
  | nil => rfl
  | cons e es ih =>
    rw [List.map_cons, last_cons, last_cons, ih]
    simp only [hf.eq_iff]

/-- What a fold shows under a key: the last entry that one of its steps says, or what it showed before. -/
theorem show_foldl (look : σ → Option ν) {step : σ → α → σ} {say : α → List (κ × ν)} {k : κ}
    (h : ∀ s x, look (step s x) = (last (say x) k).or (look s)) (s : σ) (xs : List α) :
    look (xs.foldl step s) = (last (xs.flatMap say) k).or (look s) := by
  induction xs generalizing s with
  | nil => rfl
  | cons x xs ih => rw [List.foldl_cons, ih, h, List.flatMap_cons, last_append, Option.or_assoc]

/-! ### Sorted lists with some entries taken out -/

section
variable {r : α → α → Prop} [DecidableRel r] [IsTrans α r]

omit [IsTrans α r] in
private theorem orderedInsert_of_forall {a : α} {l : List α} (h : ∀ b ∈ l, r a b) : l.orderedInsert r a = a :: l := by
  cases l with
  | nil => rfl
  | cons b l => exact List.orderedInsert_cons_of_le r l (h b List.mem_cons_self)

private theorem filter_orderedInsert (p : α → Bool) (a : α) {l : List α} (hl : l.Pairwise r) :
    (l.orderedInsert r a).filter p = if p a then (l.filter p).orderedInsert r a else l.filter p := by
  induction l with
  | nil => simp [List.filter_cons]
  | cons b l ih =>
    rw [List.pairwise_cons] at hl
    by_cases hab : r a b
    · have hall : ∀ c ∈ (b :: l).filter p, r a c := by
        intro c hc
        rcases List.mem_cons.1 (List.mem_of_mem_filter hc) with rfl | hc
        · exact hab
        · exact IsTrans.trans _ _ _ hab (hl.1 c hc)
      rw [List.orderedInsert_cons_of_le r l hab, List.filter_cons, orderedInsert_of_forall hall]
    · rw [List.orderedInsert_of_not_le r l hab, List.filter_cons, List.filter_cons, ih hl.2]
      by_cases hb : p b = true <;> by_cases ha : p a = true <;> simp [ha, hb, hab]

theorem filter_insertionSort [Std.Total r] (p : α → Bool) (l : List α) :
    (l.insertionSort r).filter p = (l.filter p).insertionSort r := by
  induction l with
  | nil => rfl
  | cons a l ih =>
    rw [List.insertionSort_cons, filter_orderedInsert p a (List.pairwise_insertionSort r l), ih, List.filter_cons]
    split
    · rfl
    · rfl

end

end Entries
