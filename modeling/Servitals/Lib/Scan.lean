import Mathlib

/-!
# Taking matches out of a list

A pattern tells what is left of a list after a match at its beginning.  `remove` goes through a list and takes out every
match it comes to, as a replacement of all matches by nothing does.  It leaves a list as it is exactly when nothing in it
matches (`remove_eq_self_iff`), and commutes with a map of elements to lists when the pattern does (`remove_flatMap`).
-/

/-- What is left of a list that begins with a match; a match has an element at least. -/
structure Pattern (α : Type*) where
  rest : List α → Option (List α)
  nil : rest [] = none
  suffix : ∀ {a s r}, rest (a :: s) = some r → r <:+ s

namespace Pattern

variable {α β : Type*}

/-- The list without the matches, after `k` elements that belong to one. -/
def removeFrom (p : Pattern α) : ℕ → List α → List α
  | _, [] => []
  | k + 1, _ :: s => removeFrom p k s
  | 0, a :: s =>
    match p.rest (a :: s) with
    | none => a :: removeFrom p 0 s
    | some r => removeFrom p (s.length - r.length) s

/-- The list without the matches. -/
def remove (p : Pattern α) (s : List α) : List α := p.removeFrom 0 s

variable (p : Pattern α)

@[simp] theorem remove_nil : p.remove [] = [] := rfl

private theorem removeFrom_eq (k : ℕ) (s : List α) : p.removeFrom k s = p.remove (s.drop k) := by
  induction s generalizing k with
  | nil => cases k <;> rfl
  | cons a s ih =>
    cases k with
    | zero => rfl
    | succ k => exact ih k

private theorem remove_of_none {a : α} {s : List α} (h : p.rest (a :: s) = none) :
    p.remove (a :: s) = a :: p.remove s := by
  rw [remove, removeFrom, h]
  rfl

private theorem remove_of_some {a : α} {s r : List α} (h : p.rest (a :: s) = some r) :
    p.remove (a :: s) = p.remove r := by
  have hdrop : s.drop (s.length - r.length) = r := (List.suffix_iff_eq_drop.1 (p.suffix h)).symm
  rw [remove, removeFrom, h]
  dsimp only
  rw [removeFrom_eq, hdrop]

/-- A fact of every list: it holds of the empty one, and goes from what is after an element or a match to the whole. -/
theorem induct {P : List α → Prop} (hnil : P []) (hnone : ∀ a s, p.rest (a :: s) = none → P s → P (a :: s))
    (hsome : ∀ a s r, p.rest (a :: s) = some r → P r → P (a :: s)) (s : List α) : P s := by
  induction hn : s.length using Nat.strong_induction_on generalizing s with
  | _ n ih =>
    cases s with
    | nil => exact hnil
    | cons a s =>
      rw [List.length_cons] at hn
      cases h : p.rest (a :: s) with
      | none => exact hnone a s h (ih s.length (by omega) s rfl)
      | some r =>
        have hle := (p.suffix h).length_le
        exact hsome a s r h (ih r.length (by omega) r rfl)

/-! ### Lists without a match -/

/-- Nothing in the list matches. -/
def NoMatch (s : List α) : Prop := ∀ t, t <:+ s → p.rest t = none

variable {p}

private theorem noMatch_cons {a : α} {s : List α} : p.NoMatch (a :: s) ↔ p.rest (a :: s) = none ∧ p.NoMatch s := by
  constructor
  · intro h
    exact ⟨h _ List.suffix_rfl, fun t ht => h t (ht.trans (List.suffix_cons a s))⟩
  · rintro ⟨hnone, h⟩ t ht
    rcases List.suffix_cons_iff.1 ht with rfl | ht
    · exact hnone
    · exact h t ht

variable (p)

theorem remove_sublist (s : List α) : (p.remove s).Sublist s := by
  induction s using p.induct with
  | hnil => exact List.Sublist.slnil
  | hnone a s h ih =>
    rw [p.remove_of_none h]
    exact ih.cons_cons a
  | hsome a s r h ih =>
    rw [p.remove_of_some h]
    exact (ih.trans (p.suffix h).sublist).cons a

/-- A list is left as it is exactly when nothing in it matches. -/
theorem remove_eq_self_iff (s : List α) : p.remove s = s ↔ p.NoMatch s := by
  induction s using p.induct with
  | hnil =>
    refine iff_of_true rfl fun t ht => ?_
    rw [List.suffix_nil.1 ht, p.nil]
  | hnone a s h ih =>
    rw [p.remove_of_none h, noMatch_cons, List.cons_inj_right, ih]
    exact (and_iff_right h).symm
  | hsome a s r h ih =>
    constructor
    · intro heq
      have hrem := (p.remove_sublist r).length_le
      have hle := (p.suffix h).length_le
      rw [p.remove_of_some h] at heq
      have hlen := congrArg List.length heq
      rw [List.length_cons] at hlen
      omega
    · intro hno
      rw [(noMatch_cons.1 hno).1] at h
      cases h

/-- The elements of a prefix at which no match begins stay. -/
private theorem remove_append {s t : List α} (h : ∀ b u, b :: u <:+ s → p.rest (b :: u ++ t) = none) :
    p.remove (s ++ t) = s ++ p.remove t := by
  induction s with
  | nil => rfl
  | cons a s ih =>
    have hnone : p.rest (a :: (s ++ t)) = none := h a s List.suffix_rfl
    rw [List.cons_append, p.remove_of_none hnone, ih fun b u hu => h b u (hu.trans (List.suffix_cons a s)),
      List.cons_append]

/-! ### A list for each element -/

variable {p}

/-- When each element has a list of its own, and a match of the elements is one of their lists, which nothing else in them
begins, then taking out the one is taking out the other. -/
theorem remove_flatMap {q : Pattern β} {f : α → List β}
    (hrest : ∀ l : List α, q.rest (l.flatMap f) = (p.rest l).map fun r => r.flatMap f)
    (hinner : ∀ (a : α) (l : List α) (b : β) (t : List β), b :: t <:+ (f a).tail → q.rest (b :: t ++ l.flatMap f) = none)
    (hne : ∀ a, f a ≠ []) (l : List α) : q.remove (l.flatMap f) = (p.remove l).flatMap f := by
  induction l using p.induct with
  | hnil => rfl
  | hnone a l h ih =>
    have hq := hrest (a :: l)
    rw [h, Option.map_none, List.flatMap_cons] at hq
    cases hf : f a with
    | nil => exact absurd hf (hne a)
    | cons x t =>
      rw [hf, List.cons_append] at hq
      have hinner := hinner a l
      rw [hf, List.tail_cons] at hinner
      rw [p.remove_of_none h, List.flatMap_cons, List.flatMap_cons, hf, List.cons_append, q.remove_of_none hq,
        q.remove_append hinner, ih, List.cons_append]
  | hsome a l r h ih =>
    have hq := hrest (a :: l)
    rw [h, Option.map_some, List.flatMap_cons] at hq
    cases hf : f a with
    | nil => exact absurd hf (hne a)
    | cons x t =>
      rw [hf, List.cons_append] at hq
      rw [p.remove_of_some h, List.flatMap_cons, hf, List.cons_append, q.remove_of_some hq, ih]

end Pattern

namespace Scan

variable {α β : Type*}

/-- One element of a class. -/
def one (c : α → Bool) : List α → Option (List α)
  | [] => none
  | a :: s => if c a then some s else none

theorem one_suffix {c : α → Bool} {s r : List α} (h : one c s = some r) : r <:+ s := by
  cases s with
  | nil => cases h
  | cons a s =>
    rw [one] at h
    split at h
    · cases h
      exact List.suffix_cons _ _
    · cases h

/-- A pattern of an element of a class, and what comes after it. -/
def first (c : α → Bool) (next : List α → Option (List α)) (h : ∀ {l r}, next l = some r → r <:+ l) : Pattern α where
  rest l := (one c l).bind next
  nil := rfl
  suffix := by
    intro a s r hrest
    obtain ⟨t, ht, hnext⟩ := Option.bind_eq_some_iff.1 hrest
    rw [one] at ht
    split at ht
    · cases ht
      exact h hnext
    · cases ht

/-- An element of a class is a list of one element of the class; the elements of the list of any other are not in it. -/
theorem one_flatMap {c : α → Bool} {d : β → Bool} {f : α → List β} (hin : ∀ a, c a = true → ∃ x, f a = [x] ∧ d x = true)
    (hout : ∀ a, c a = false → f a ≠ [] ∧ ∀ x ∈ f a, d x = false) (l : List α) :
    one d (l.flatMap f) = (one c l).map fun r => r.flatMap f := by
  cases l with
  | nil => rfl
  | cons a l =>
    rw [List.flatMap_cons, one]
    cases hc : c a with
    | true =>
      obtain ⟨x, hx, hd⟩ := hin a hc
      rw [hx, List.singleton_append, one, if_pos hd, if_pos rfl]
      rfl
    | false =>
      obtain ⟨hne, hd⟩ := hout a hc
      cases hf : f a with
      | nil => exact absurd hf hne
      | cons x t =>
        rw [hf] at hd
        rw [List.cons_append, one, if_neg (by rw [hd x List.mem_cons_self]; exact Bool.false_ne_true),
          if_neg Bool.false_ne_true]
        rfl

/-- The elements of a class at the beginning, each with a list of elements of the class. -/
theorem dropWhile_flatMap {c : α → Bool} {d : β → Bool} {f : α → List β} (h : ∀ a, f a ≠ [] ∧ ∀ x ∈ f a, d x = c a)
    (l : List α) : (l.flatMap f).dropWhile d = (l.dropWhile c).flatMap f := by
  induction l with
  | nil => rfl
  | cons a l ih =>
    obtain ⟨hne, hd⟩ := h a
    rw [List.flatMap_cons, List.dropWhile_cons]
    cases hc : c a with
    | true =>
      rw [hc] at hd
      rw [List.dropWhile_append_of_pos hd, ih, if_pos rfl]
    | false =>
      cases hf : f a with
      | nil => exact absurd hf hne
      | cons x t =>
        rw [hf, hc] at hd
        rw [List.cons_append, List.dropWhile_cons, if_neg (by rw [hd x List.mem_cons_self]; exact Bool.false_ne_true),
          if_neg Bool.false_ne_true, List.flatMap_cons, hf, List.cons_append]

end Scan
