import Servitals.JsString
import Servitals.Lib.OMap

/-!
# JSON values

What `JSON.parse` returns.  A number is the one the double holds, `none` when it is infinite (`1e999`); an object is its
members in their order, and a member is read by its name.  A value that may be undefined is an `Option Json`.
-/

namespace Servitals

inductive Json
  | null
  | bool (b : Bool)
  | num (x : Option ℚ)
  | str (s : JsString)
  | arr (xs : List Json)
  | obj (m : List (JsString × Json))

namespace Json

/-- `isObj` -/
def isObj : Json → Bool
  | .obj _ => true
  | _ => false

/-- The member of a name, of the members of an object. -/
def member (m : List (JsString × Json)) (k : JsString) : Option Json := (m.find? fun e => e.1 = k).map Prod.snd

/-- `v.k` of an object `v`. -/
def get (v : Json) (k : JsString) : Option Json :=
  match v with
  | .obj m => member m k
  | _ => none

@[simp]
theorem get_obj (m : List (JsString × Json)) (k : JsString) : (obj m).get k = member m k := rfl

/-- Only an object has members. -/
theorem get_of_ne_obj {v : Json} (h : ∀ m, v ≠ .obj m) (k : JsString) : v.get k = none := by
  cases v with
  | obj m => exact absurd rfl (h m)
  | null => rfl
  | bool b => rfl
  | num x => rfl
  | str s => rfl
  | arr xs => rfl

theorem exists_of_isObj {v : Json} (h : v.isObj = true) : ∃ m, v = .obj m := by
  cases v with
  | obj m => exact ⟨m, rfl⟩
  | null => cases h
  | bool b => cases h
  | num x => cases h
  | str s => cases h
  | arr xs => cases h

@[simp]
theorem member_nil (k : JsString) : member [] k = none := rfl

theorem member_cons (e : JsString × Json) (m : List (JsString × Json)) (k : JsString) :
    member (e :: m) k = if e.1 = k then some e.2 else member m k := by
  unfold member
  by_cases hk : e.1 = k <;> simp [hk]

theorem member_eq_none {m : List (JsString × Json)} {k : JsString} : member m k = none ↔ k ∉ m.map Prod.fst := by
  simp only [member, Option.map_eq_none_iff, List.find?_eq_none, decide_eq_true_eq, List.mem_map, not_exists, not_and]

/-! ### Setting and deleting a member -/

/-- `m[k] = v` -/
def put (m : List (JsString × Json)) (k : JsString) (v : Json) : List (JsString × Json) := OMap.setEntries k v m

/-- `delete m[k]` -/
def remove (m : List (JsString × Json)) (k : JsString) : List (JsString × Json) := m.filter fun e => e.1 ≠ k

/-- `{ ...m, ...n }` -/
def spread (m n : List (JsString × Json)) : List (JsString × Json) := n.foldl (fun m e => put m e.1 e.2) m

theorem member_put (m : List (JsString × Json)) (k x : JsString) (v : Json) :
    member (put m k v) x = if x = k then some v else member m x := by
  unfold member put
  split
  · rename_i h
    rw [h, OMap.find?_setEntries_self, Option.map_some]
  · rename_i h
    rw [OMap.find?_setEntries_of_ne h]

theorem member_remove (m : List (JsString × Json)) (k x : JsString) :
    member (remove m k) x = if x = k then none else member m x := by
  induction m with
  | nil => simp [remove]
  | cons e m ih =>
    by_cases he : e.1 = k
    · have hdrop : remove (e :: m) k = remove m k := List.filter_cons_of_neg (by simp [he])
      rw [hdrop, ih, member_cons]
      split
      · rfl
      · rename_i hx
        rw [if_neg fun h => hx (h.symm.trans he)]
    · have hkeep : remove (e :: m) k = e :: remove m k := List.filter_cons_of_pos (by simp [he])
      rw [hkeep, member_cons, member_cons, ih]
      by_cases hx : e.1 = x
      · rw [if_pos hx, if_pos hx, if_neg fun h => he (hx.trans h)]
      · rw [if_neg hx, if_neg hx]

theorem member_spread_of_notMem {m n : List (JsString × Json)} {k : JsString} (h : ∀ e ∈ n, e.1 ≠ k) :
    member (spread m n) k = member m k := by
  unfold spread
  induction n generalizing m with
  | nil => rfl
  | cons e n ih =>
    rw [List.foldl_cons, ih fun e' he' => h e' (List.mem_cons_of_mem _ he'), member_put,
      if_neg fun hk => h e List.mem_cons_self hk.symm]

/-! ### Paths -/

/-- The value at a path of names. -/
def atPath : Json → List JsString → Option Json
  | v, [] => some v
  | v, k :: q => (v.get k).bind fun w => w.atPath q

/-! ### What is read back of `JSON.stringify` -/

mutual
/-- An infinite number is written as null. -/
def written : Json → Json
  | .num none => .null
  | .arr xs => .arr (writtenList xs)
  | .obj m => .obj (writtenMembers m)
  | v => v
def writtenList : List Json → List Json
  | [] => []
  | x :: xs => x.written :: writtenList xs
def writtenMembers : List (JsString × Json) → List (JsString × Json)
  | [] => []
  | (k, v) :: m => (k, v.written) :: writtenMembers m
end

mutual
/-- Every number in the value is finite. -/
def finite : Json → Bool
  | .num x => x.isSome
  | .arr xs => finiteList xs
  | .obj m => finiteMembers m
  | _ => true
def finiteList : List Json → Bool
  | [] => true
  | x :: xs => x.finite && finiteList xs
def finiteMembers : List (JsString × Json) → Bool
  | [] => true
  | (_, v) :: m => v.finite && finiteMembers m
end

/-- Induction over a value: over the elements of a list and the members of an object. -/
private theorem ind {P : Json → Prop} (hnull : P .null) (hbool : ∀ b, P (.bool b)) (hnum : ∀ x, P (.num x))
    (hstr : ∀ s, P (.str s))
    (harr : ∀ xs, (∀ x ∈ xs, P x) → P (.arr xs)) (hobj : ∀ m, (∀ e ∈ m, P e.2) → P (.obj m)) (v : Json) : P v :=
  @Json.rec P (fun xs => ∀ x ∈ xs, P x) (fun m => ∀ e ∈ m, P e.2) (fun e => P e.2) hnull hbool hnum hstr harr hobj
    (fun _ h => absurd h List.not_mem_nil) (fun _ _ hx hxs => List.forall_mem_cons.2 ⟨hx, hxs⟩)
    (fun _ h => absurd h List.not_mem_nil) (fun _ _ he hm => List.forall_mem_cons.2 ⟨he, hm⟩) (fun _ _ hv => hv) v

private theorem writtenList_eq (xs : List Json) : writtenList xs = xs.map written := by
  induction xs with
  | nil => rfl
  | cons x xs ih => rw [writtenList, ih, List.map_cons]

private theorem writtenMembers_eq (m : List (JsString × Json)) :
    writtenMembers m = m.map fun e => (e.1, e.2.written) := by
  induction m with
  | nil => rfl
  | cons e m ih => rw [writtenMembers, ih, List.map_cons]

private theorem finiteList_iff (xs : List Json) : finiteList xs = true ↔ ∀ x ∈ xs, x.finite = true := by
  induction xs with
  | nil => simp [finiteList]
  | cons x xs ih => rw [finiteList, Bool.and_eq_true, ih, List.forall_mem_cons]

private theorem finiteMembers_iff (m : List (JsString × Json)) :
    finiteMembers m = true ↔ ∀ e ∈ m, e.2.finite = true := by
  induction m with
  | nil => simp [finiteMembers]
  | cons e m ih => rw [finiteMembers, Bool.and_eq_true, ih, List.forall_mem_cons]

theorem finite_written (v : Json) : v.written.finite = true := by
  induction v using ind with
  | hnull => rfl
  | hbool b => rfl
  | hnum x => cases x <;> rfl
  | hstr s => rfl
  | harr xs ih =>
    rw [written, finite, finiteList_iff, writtenList_eq]
    intro y hy
    obtain ⟨x, hx, rfl⟩ := List.mem_map.1 hy
    exact ih x hx
  | hobj m ih =>
    rw [written, finite, finiteMembers_iff, writtenMembers_eq]
    intro e' he'
    obtain ⟨e, he, rfl⟩ := List.mem_map.1 he'
    exact ih e he

theorem written_of_finite {v : Json} (h : v.finite = true) : v.written = v := by
  induction v using ind with
  | hnull => rfl
  | hbool b => rfl
  | hnum x =>
    cases x with
    | none => cases h
    | some x => rfl
  | hstr s => rfl
  | harr xs ih =>
    rw [finite, finiteList_iff] at h
    rw [written, writtenList_eq, List.map_congr_left fun x hx => ih x hx (h x hx), List.map_id']
  | hobj m ih =>
    rw [finite, finiteMembers_iff] at h
    have hmap : ∀ e ∈ m, (e.1, e.2.written) = e := fun e he => by rw [ih e he (h e he)]
    rw [written, writtenMembers_eq, List.map_congr_left hmap, List.map_id']

theorem written_eq_self_iff {v : Json} : v.written = v ↔ v.finite = true :=
  ⟨fun h => h ▸ finite_written v, written_of_finite⟩

private theorem get_written (v : Json) (k : JsString) : v.written.get k = (v.get k).map written := by
  cases v with
  | obj m =>
    rw [written, writtenMembers_eq, get_obj, get_obj]
    simp [member, List.find?_map, Option.map_map, Function.comp_def]
  | num x => cases x <;> rfl
  | null => rfl
  | bool b => rfl
  | str s => rfl
  | arr xs => rfl

theorem atPath_written (v : Json) (q : List JsString) : v.written.atPath q = (v.atPath q).map written := by
  induction q generalizing v with
  | nil => rfl
  | cons k q ih =>
    rw [atPath, atPath, get_written]
    cases v.get k with
    | none => rfl
    | some w => exact ih w

/-- What is inside a value without infinite numbers has none. -/
theorem finite_atPath {v w : Json} {q : List JsString} (hv : v.finite = true) (h : v.atPath q = some w) :
    w.finite = true := by
  rw [← written_of_finite hv, atPath_written] at h
  obtain ⟨u, -, rfl⟩ := Option.map_eq_some_iff.1 h
  exact finite_written u

/-! ### Members given by name -/

/-- The members that are there. -/
def clean (ms : List (JsString × Option Json)) : List (JsString × Json) := ms.filterMap fun e => e.2.map fun v => (e.1, v)

theorem clean_cons (e : JsString × Option Json) (ms : List (JsString × Option Json)) :
    clean (e :: ms) = (e.2.map fun v => (e.1, v)).toList ++ clean ms := by
  unfold clean
  cases h : e.2 <;> simp [h]

theorem clean_keys (ms : List (JsString × Option Json)) : ((clean ms).map Prod.fst).Sublist (ms.map Prod.fst) := by
  induction ms with
  | nil => exact .slnil
  | cons e ms ih =>
    rw [clean_cons]
    cases h : e.2 with
    | none => exact ih.cons _
    | some v => exact ih.cons_cons _

theorem member_clean {ms : List (JsString × Option Json)} (hnodup : (ms.map Prod.fst).Nodup) {k : JsString}
    {v : Option Json} (h : (k, v) ∈ ms) : member (clean ms) k = v := by
  induction ms with
  | nil => cases h
  | cons e ms ih =>
    rw [List.map_cons, List.nodup_cons] at hnodup
    have habsent : member (clean ms) e.1 = none :=
      member_eq_none.2 fun hm => hnodup.1 ((clean_keys ms).subset hm)
    rw [clean_cons]
    rcases List.mem_cons.1 h with rfl | h
    · cases v with
      | none => exact habsent
      | some w => exact (member_cons ..).trans (if_pos rfl)
    · have hne : e.1 ≠ k := by
        rintro rfl
        exact hnodup.1 (List.mem_map.2 ⟨_, h, rfl⟩)
      cases he : e.2 with
      | none => exact ih hnodup.2 h
      | some w => exact (member_cons ..).trans ((if_neg hne).trans (ih hnodup.2 h))

/-- Members in the order of some names are read back by these names. -/
theorem clean_of_sublist {m : List (JsString × Json)} {names : List JsString} (hnodup : names.Nodup)
    (h : (m.map Prod.fst).Sublist names) : clean (names.map fun k => (k, member m k)) = m := by
  induction names generalizing m with
  | nil =>
    rw [List.sublist_nil, List.map_eq_nil_iff] at h
    rw [h]
    rfl
  | cons k names ih =>
    rw [List.nodup_cons] at hnodup
    rw [List.map_cons, clean_cons]
    by_cases hk : k ∈ m.map Prod.fst
    · cases m with
      | nil => cases hk
      | cons e m =>
        -- the first member is the one of the first name: the others come after it
        have he : e.1 = k := by
          by_contra hne
          rw [List.map_cons] at h hk
          rcases List.sublist_cons_iff.1 h with hsub | ⟨r, hr, -⟩
          · exact hnodup.1 (hsub.subset hk)
          · exact hne (List.cons.inj hr).1
        subst he
        have htail : (m.map Prod.fst).Sublist names := by
          rcases List.sublist_cons_iff.1 h with hsub | ⟨r, hr, hsub⟩
          · exact (List.sublist_cons_self _ _).trans hsub
          · exact (List.cons.inj hr).2 ▸ hsub
        have hrest : names.map (fun k => (k, member (e :: m) k)) = names.map fun k => (k, member m k) := by
          apply List.map_congr_left
          intro k hk
          rw [member_cons, if_neg]
          rintro rfl
          exact hnodup.1 hk
        rw [hrest, ih hnodup.2 htail, member_cons, if_pos rfl]
        rfl
    · have htail : (m.map Prod.fst).Sublist names := by
        rcases List.sublist_cons_iff.1 h with hsub | ⟨r, hr, -⟩
        · exact hsub
        · exact absurd (hr ▸ List.mem_cons_self) hk
      rw [ih hnodup.2 htail, member_eq_none.2 hk]
      rfl

end Json

end Servitals
