import Mathlib

/-!
# Maps that remember insertion order

`OMap κ ν` is a finite map kept as a list of entries with pairwise distinct keys.  Setting a key that is present
replaces its value in place, setting a new key appends it, and deleting a key leaves the order of the others: the
order in which a loop over the entries visits them.
-/

/-- A finite map with the order in which its keys were first set. -/
structure OMap (κ ν : Type*) where
  entries : List (κ × ν)
  nodup : (entries.map Prod.fst).Nodup

namespace OMap

variable {κ ν : Type*} [DecidableEq κ]

omit [DecidableEq κ] in
@[ext]
theorem ext {m n : OMap κ ν} (h : m.entries = n.entries) : m = n := by
  cases m; cases n; cases h; rfl

instance [DecidableEq ν] : DecidableEq (OMap κ ν) := fun m n =>
  decidable_of_iff (m.entries = n.entries) ⟨ext, congrArg entries⟩

/-- The map without entries. -/
def empty : OMap κ ν := ⟨[], List.nodup_nil⟩

/-- The value set for `k`. -/
def get? (m : OMap κ ν) (k : κ) : Option ν := (m.entries.find? fun e => e.1 = k).map Prod.snd

def contains (m : OMap κ ν) (k : κ) : Bool := (m.get? k).isSome

def keys (m : OMap κ ν) : List κ := m.entries.map Prod.fst

def values (m : OMap κ ν) : List ν := m.entries.map Prod.snd

/-! ### Setting a key -/

/-- The entries after `k` is set to `v`: in place when `k` is there, else at the end. -/
def setEntries (k : κ) (v : ν) : List (κ × ν) → List (κ × ν)
  | [] => [(k, v)]
  | e :: es => if e.1 = k then (k, v) :: es else e :: setEntries k v es

theorem mem_keys_setEntries {k x : κ} {v : ν} {es : List (κ × ν)} :
    x ∈ (setEntries k v es).map Prod.fst ↔ x = k ∨ x ∈ es.map Prod.fst := by
  induction es with
  | nil => simp [setEntries]
  | cons e es ih =>
    unfold setEntries
    split
    · rename_i h
      subst h
      simp
    · simp only [List.map_cons, List.mem_cons, ih]
      exact or_left_comm

theorem nodup_setEntries {k : κ} {v : ν} {es : List (κ × ν)} (h : (es.map Prod.fst).Nodup) :
    ((setEntries k v es).map Prod.fst).Nodup := by
  induction es with
  | nil => simp [setEntries]
  | cons e es ih =>
    simp only [List.map_cons, List.nodup_cons] at h
    unfold setEntries
    split
    · rename_i hk
      subst hk
      simpa using h
    · rename_i hk
      simp only [List.map_cons, List.nodup_cons, mem_keys_setEntries, not_or]
      exact ⟨⟨hk, h.1⟩, ih h.2⟩

def set (m : OMap κ ν) (k : κ) (v : ν) : OMap κ ν := ⟨setEntries k v m.entries, nodup_setEntries m.nodup⟩

/-- The map without the key `k`. -/
def erase (m : OMap κ ν) (k : κ) : OMap κ ν :=
  ⟨m.entries.filter fun e => e.1 ≠ k, m.nodup.sublist (List.filter_sublist.map _)⟩

/-- The map with every value changed by `f`. -/
def mapVal {μ : Type*} (f : ν → μ) (m : OMap κ ν) : OMap κ μ :=
  ⟨m.entries.map fun e => (e.1, f e.2), by simpa [Function.comp_def] using m.nodup⟩

/-- The entries that satisfy `p`. -/
def filter (m : OMap κ ν) (p : κ → ν → Bool) : OMap κ ν :=
  ⟨m.entries.filter fun e => p e.1 e.2, m.nodup.sublist (List.filter_sublist.map _)⟩

/-! ### Looking a key up -/

@[simp]
theorem get?_empty (k : κ) : (empty : OMap κ ν).get? k = none := rfl

theorem mem_entries_iff {m : OMap κ ν} {k : κ} {v : ν} : (k, v) ∈ m.entries ↔ m.get? k = some v := by
  obtain ⟨es, hnd⟩ := m
  simp only [get?]
  induction es with
  | nil => simp
  | cons e es ih =>
    simp only [List.map_cons, List.nodup_cons] at hnd
    by_cases hk : e.1 = k
    · subst hk
      simp only [List.mem_cons, List.find?_cons, decide_true, Option.map_some, Option.some.injEq]
      constructor
      · rintro (h | h)
        · rw [← h]
        · exact absurd (List.mem_map_of_mem h) hnd.1
      · rintro rfl
        exact Or.inl rfl
    · have hne : (k, v) ≠ e := fun h => hk (by rw [← h])
      simp only [List.mem_cons, hne, false_or, List.find?_cons, hk, decide_false]
      exact ih hnd.2

theorem find?_setEntries_self (k : κ) (v : ν) (es : List (κ × ν)) :
    (setEntries k v es).find? (fun e => e.1 = k) = some (k, v) := by
  induction es with
  | nil => simp [setEntries]
  | cons e es ih =>
    unfold setEntries
    split
    · simp
    · rename_i hk
      simp [hk, ih]

theorem find?_setEntries_of_ne {k x : κ} (h : x ≠ k) (v : ν) (es : List (κ × ν)) :
    (setEntries k v es).find? (fun e => e.1 = x) = es.find? (fun e => e.1 = x) := by
  induction es with
  | nil => simp [setEntries, h.symm]
  | cons e es ih =>
    unfold setEntries
    split
    · rename_i hk
      simp [hk, h.symm]
    · simp [List.find?_cons, ih]

@[simp]
theorem get?_set_self (m : OMap κ ν) (k : κ) (v : ν) : (m.set k v).get? k = some v := by
  simp only [get?, set, find?_setEntries_self, Option.map_some]

theorem get?_set_of_ne (m : OMap κ ν) {k x : κ} (h : x ≠ k) (v : ν) : (m.set k v).get? x = m.get? x := by
  simp only [get?, set, find?_setEntries_of_ne h]

theorem get?_set (m : OMap κ ν) (k x : κ) (v : ν) :
    (m.set k v).get? x = if x = k then some v else m.get? x := by
  split
  · rename_i h
    rw [h, get?_set_self]
  · rename_i h
    exact get?_set_of_ne m h v

theorem get?_erase (m : OMap κ ν) (k x : κ) : (m.erase k).get? x = if x = k then none else m.get? x := by
  obtain ⟨es, hnd⟩ := m
  simp only [get?, erase, List.find?_filter]
  split
  · rename_i h
    subst h
    rw [Option.map_eq_none_iff, List.find?_eq_none]
    simp
  · rename_i h
    congr 1
    apply congrArg (fun p => List.find? p es)
    funext e
    by_cases he : e.1 = x
    · simp [he, h]
    · simp [he]

@[simp]
theorem get?_erase_self (m : OMap κ ν) (k : κ) : (m.erase k).get? k = none := by
  rw [get?_erase, if_pos rfl]

theorem get?_erase_of_ne (m : OMap κ ν) {k x : κ} (h : x ≠ k) : (m.erase k).get? x = m.get? x := by
  rw [get?_erase, if_neg h]

@[simp]
theorem get?_mapVal {μ : Type*} (f : ν → μ) (m : OMap κ ν) (k : κ) : (m.mapVal f).get? k = (m.get? k).map f := by
  simp [get?, mapVal, List.find?_map, Option.map_map, Function.comp_def]

theorem get?_filter (m : OMap κ ν) (p : κ → ν → Bool) (k : κ) :
    (m.filter p).get? k = (m.get? k).filter (p k) := by
  ext v
  rw [← mem_entries_iff, Option.filter_eq_some_iff, ← mem_entries_iff]
  simp [filter]

/-! ### The entries after a change -/

theorem entries_set_of_none {m : OMap κ ν} {k : κ} (h : m.get? k = none) (v : ν) :
    (m.set k v).entries = m.entries ++ [(k, v)] := by
  have hnone : ∀ e ∈ m.entries, e.1 ≠ k := by
    intro e he hk
    have hget : m.get? e.1 = some e.2 := mem_entries_iff.1 he
    rw [hk, h] at hget
    cases hget
  have hset : ∀ es : List (κ × ν), (∀ e ∈ es, e.1 ≠ k) → setEntries k v es = es ++ [(k, v)] := by
    intro es hes
    induction es with
    | nil => rfl
    | cons e es ih =>
      rw [setEntries, if_neg (hes e List.mem_cons_self), ih fun x hx => hes x (List.mem_cons_of_mem _ hx)]
      rfl
  exact hset m.entries hnone

theorem length_le_set (m : OMap κ ν) (k : κ) (v : ν) : m.entries.length ≤ (m.set k v).entries.length := by
  have hset : ∀ es : List (κ × ν), es.length ≤ (setEntries k v es).length := by
    intro es
    induction es with
    | nil => exact Nat.zero_le _
    | cons e es ih =>
      unfold setEntries
      split
      · exact le_rfl
      · exact Nat.succ_le_succ ih
  exact hset m.entries

theorem length_set_le (m : OMap κ ν) (k : κ) (v : ν) : (m.set k v).entries.length ≤ m.entries.length + 1 := by
  have hset : ∀ es : List (κ × ν), (setEntries k v es).length ≤ es.length + 1 := by
    intro es
    induction es with
    | nil => exact le_rfl
    | cons e es ih =>
      unfold setEntries
      split
      · exact Nat.le_succ _
      · exact Nat.succ_le_succ ih
  exact hset m.entries

omit [DecidableEq κ] in
theorem values_sublist {m n : OMap κ ν} (h : m.entries.Sublist n.entries) : m.values.Sublist n.values := h.map _

/-! ### Membership in keys and values -/

theorem mem_values_iff {m : OMap κ ν} {v : ν} : v ∈ m.values ↔ ∃ k, m.get? k = some v := by
  simp only [values, List.mem_map, Prod.exists, exists_eq_right, mem_entries_iff]

theorem contains_iff {m : OMap κ ν} {k : κ} : m.contains k = true ↔ ∃ v, m.get? k = some v :=
  Option.isSome_iff_exists

theorem mem_keys_iff {m : OMap κ ν} {k : κ} : k ∈ m.keys ↔ ∃ v, m.get? k = some v := by
  simp only [keys, List.mem_map, Prod.exists, exists_and_right, exists_eq_right, mem_entries_iff]

/-! ### Keys in a given order -/

/-- The entries of a map whose keys stand in the order of some names, read by these names. -/
private theorem entries_of_sublist {names : List κ} (hnodup : names.Nodup) {m : OMap κ ν} (h : m.keys.Sublist names) :
    m.entries = names.filterMap fun k => (m.get? k).map fun v => (k, v) := by
  obtain ⟨es, hes⟩ := m
  simp only [keys, get?] at h ⊢
  induction names generalizing es with
  | nil =>
    rw [List.sublist_nil, List.map_eq_nil_iff] at h
    rw [h, List.filterMap_nil]
  | cons k names ih =>
    rw [List.nodup_cons] at hnodup
    by_cases hk : k ∈ es.map Prod.fst
    · cases es with
      | nil => cases hk
      | cons e es =>
        -- the first entry is the one of the first name: the others come after it
        have he : e.1 = k ∧ (es.map Prod.fst).Sublist names := by
          rw [List.map_cons] at h
          rcases List.sublist_cons_iff.1 h with hsub | ⟨r, hr, hsub⟩
          · exact absurd (hsub.subset hk) hnodup.1
          · rw [← (List.cons.inj hr).2] at hsub
            exact ⟨(List.cons.inj hr).1, hsub⟩
        obtain ⟨rfl, hsub⟩ := he
        rw [List.map_cons, List.nodup_cons] at hes
        have hrest : names.filterMap (fun k => ((e :: es).find? fun e => e.1 = k).map fun e => (k, e.2)) =
            names.filterMap fun k => (es.find? fun e => e.1 = k).map fun e => (k, e.2) := by
          apply List.filterMap_congr
          intro k hk
          have hne : e.1 ≠ k := by
            rintro rfl
            exact hnodup.1 hk
          rw [List.find?_cons_of_neg (by simpa using hne)]
        simp only [Option.map_map, Function.comp_def] at ih ⊢
        rw [List.filterMap_cons, List.find?_cons_of_pos (by simp), hrest, ← ih hnodup.2 es hes.2 hsub]
        rfl
    · have hsub : (es.map Prod.fst).Sublist names := by
        rcases List.sublist_cons_iff.1 h with hsub | ⟨r, hr, -⟩
        · exact hsub
        · exact absurd (hr ▸ List.mem_cons_self) hk
      have hnone : es.find? (fun e => e.1 = k) = none := by
        rw [List.find?_eq_none]
        intro e he hek
        rw [decide_eq_true_eq] at hek
        exact hk (List.mem_map.2 ⟨e, he, hek⟩)
      rw [List.filterMap_cons, hnone]
      exact ih hnodup.2 es hes hsub

/-- Two maps with the same values whose keys stand in one order are the same. -/
theorem ext_of_sublist {names : List κ} (hnodup : names.Nodup) {m n : OMap κ ν} (hm : m.keys.Sublist names)
    (hn : n.keys.Sublist names) (h : ∀ k, m.get? k = n.get? k) : m = n := by
  apply ext
  rw [entries_of_sublist hnodup hm, entries_of_sublist hnodup hn]
  simp only [h]

/-! ### Two maps, entry by entry -/

/-- The maps have the same keys in the same order, with related values. -/
def Rel {μ : Type*} (R : ν → μ → Prop) (m : OMap κ ν) (n : OMap κ μ) : Prop :=
  List.Forall₂ (fun x y => x.1 = y.1 ∧ R x.2 y.2) m.entries n.entries

namespace Rel

variable {μ : Type*} {R S : ν → μ → Prop} {m : OMap κ ν} {n : OMap κ μ}

/-- A key has related values in both maps, or a value in neither. -/
theorem get? (h : Rel R m n) (k : κ) : Option.Rel R (m.get? k) (n.get? k) := by
  unfold Rel at h
  unfold OMap.get?
  generalize m.entries = es at h ⊢
  generalize n.entries = fs at h ⊢
  induction h with
  | nil => exact .none
  | cons hxy _ ih =>
    rename_i x y xs ys _
    by_cases hk : x.1 = k
    · rw [List.find?_cons_of_pos (by simpa using hk), List.find?_cons_of_pos (by simpa using hxy.1.symm.trans hk)]
      exact .some hxy.2
    · rw [List.find?_cons_of_neg (by simpa using hk),
        List.find?_cons_of_neg (by simpa using fun hy => hk (hxy.1.trans hy))]
      exact ih

theorem set (h : Rel R m n) (k : κ) {v : ν} {w : μ} (hvw : R v w) : Rel R (m.set k v) (n.set k w) := by
  unfold Rel at h ⊢
  show List.Forall₂ _ (setEntries k v m.entries) (setEntries k w n.entries)
  generalize m.entries = es at h ⊢
  generalize n.entries = fs at h ⊢
  induction h with
  | nil => exact .cons ⟨rfl, hvw⟩ .nil
  | cons hxy hrest ih =>
    rename_i x y xs ys
    by_cases hk : x.1 = k
    · rw [setEntries, if_pos hk, setEntries, if_pos (hxy.1.symm.trans hk)]
      exact .cons ⟨rfl, hvw⟩ hrest
    · rw [setEntries, if_neg hk, setEntries, if_neg fun hy => hk (hxy.1.trans hy)]
      exact .cons hxy ih

theorem erase (h : Rel R m n) (k : κ) : Rel R (m.erase k) (n.erase k) := by
  unfold Rel at h ⊢
  show List.Forall₂ _ (m.entries.filter _) (n.entries.filter _)
  generalize m.entries = es at h ⊢
  generalize n.entries = fs at h ⊢
  induction h with
  | nil => exact .nil
  | cons hxy _ ih =>
    rename_i x y xs ys _
    by_cases hk : x.1 = k
    · rw [List.filter_cons_of_neg (by simpa using hk), List.filter_cons_of_neg (by simpa using hxy.1.symm.trans hk)]
      exact ih
    · rw [List.filter_cons_of_pos (by simpa using hk),
        List.filter_cons_of_pos (by simpa using fun hy => hk (hxy.1.trans hy))]
      exact .cons hxy ih

omit [DecidableEq κ] in
theorem values (h : Rel R m n) : List.Forall₂ R m.values n.values := by
  unfold Rel at h
  unfold OMap.values
  generalize m.entries = es at h ⊢
  generalize n.entries = fs at h ⊢
  induction h with
  | nil => exact .nil
  | cons hxy _ ih => exact .cons hxy.2 ih

omit [DecidableEq κ] in
/-- A relation of the entries that are there. -/
theorem imp (h : Rel R m n) (hRS : ∀ x ∈ m.entries, ∀ y ∈ n.entries, x.1 = y.1 → R x.2 y.2 → S x.2 y.2) : Rel S m n := by
  unfold Rel at h ⊢
  generalize m.entries = es at h hRS ⊢
  generalize n.entries = fs at h hRS ⊢
  induction h with
  | nil => exact .nil
  | cons hxy _ ih =>
    refine .cons ⟨hxy.1, hRS _ List.mem_cons_self _ List.mem_cons_self hxy.1 hxy.2⟩ (ih fun x hx y hy => ?_)
    exact hRS x (List.mem_cons_of_mem _ hx) y (List.mem_cons_of_mem _ hy)

omit [DecidableEq κ] in
theorem filterKeys (h : Rel R m n) (p : κ → Bool) : Rel R (m.filter fun k _ => p k) (n.filter fun k _ => p k) := by
  unfold Rel at h ⊢
  show List.Forall₂ _ (m.entries.filter fun e => p e.1) (n.entries.filter fun e => p e.1)
  generalize m.entries = es at h ⊢
  generalize n.entries = fs at h ⊢
  induction h with
  | nil => exact .nil
  | cons hxy _ ih =>
    simp only [List.filter_cons, hxy.1]
    split
    · exact .cons hxy ih
    · exact ih

omit [DecidableEq κ] in
theorem keys (h : Rel R m n) : m.keys = n.keys := by
  unfold Rel at h
  unfold OMap.keys
  generalize m.entries = es at h ⊢
  generalize n.entries = fs at h ⊢
  induction h with
  | nil => rfl
  | cons hxy _ ih => rw [List.map_cons, List.map_cons, hxy.1, ih]

/-- What holds of the values of each key holds along the entries. -/
theorem entries (h : Rel R m n) {S : κ → ν → μ → Prop}
    (hS : ∀ k v w, m.get? k = some v → n.get? k = some w → R v w → S k v w) :
    List.Forall₂ (fun x y => x.1 = y.1 ∧ S x.1 x.2 y.2) m.entries n.entries := by
  have hm : ∀ x ∈ m.entries, m.get? x.1 = some x.2 := fun x hx => mem_entries_iff.1 hx
  have hn : ∀ y ∈ n.entries, n.get? y.1 = some y.2 := fun y hy => mem_entries_iff.1 hy
  unfold Rel at h
  generalize m.entries = es at h hm ⊢
  generalize n.entries = fs at h hn ⊢
  induction h with
  | nil => exact .nil
  | cons hxy _ ih =>
    rename_i x y xs ys _
    have hy := hn y List.mem_cons_self
    rw [← hxy.1] at hy
    exact .cons ⟨hxy.1, hS x.1 x.2 y.2 (hm x List.mem_cons_self) hy hxy.2⟩
      (ih (fun x' hx' => hm x' (List.mem_cons_of_mem x hx')) fun y' hy' => hn y' (List.mem_cons_of_mem y hy'))

end Rel

end OMap
