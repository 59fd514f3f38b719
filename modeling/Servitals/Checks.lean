import Servitals.Json

/-!
# The checks of the snapshot validator

The functions of `hub/lib/snapshot.js` that check one value, whose errors are the paths they throw, and the checks made
of them: a check carries what it lets through (`Fits`), that nothing else comes out of it, that it leaves alone what
fits, and that its errors name the value it was given.
-/

namespace Servitals

namespace Snapshot

/-- A value that may be undefined, checked under a path. -/
abbrev Checker := Option Json → String → Except String (Option Json)

/-! ### One value -/

/-- One code unit of `replace(/[\u0000-\u001f\u007f]/g, " ")`. -/
def blank (u : UInt16) : UInt16 := if u < 0x20 || u == 0x7f then 0x20 else u

/-- `str` -/
def str (v : Option Json) (max : ℕ) (path : String) (optional : Bool) : Except String (Option Json) :=
  match v with
  | none | some .null => if optional then .ok none else .error path
  | some (.str s) => .ok (some (.str ((s.map blank).take max)))
  | some _ => .error path

/-- The options of `num`. -/
structure NumOptions where
  optional : Bool := true
  int : Bool := false
  nullable : Bool := false

/-- `num` -/
def num (v : Option Json) (lo hi : ℚ) (path : String) (o : NumOptions) : Except String (Option Json) :=
  match v with
  | none => if o.optional then .ok none else .error path
  | some .null => if o.nullable || o.optional then .ok (some .null) else .error path
  | some (.num (some x)) =>
    if x < lo ∨ hi < x then .error path
    else if o.int && !x.isInt then .error path
    else .ok (some (.num (some x)))
  | some _ => .error path

/-- `oneOf`, of strings. -/
def oneOf (v : Option Json) (allowed : List JsString) (path : String) : Except String (Option Json) :=
  match v with
  | none | some .null => .ok none
  | some (.str s) => if allowed.contains s then .ok (some (.str s)) else .error path
  | some _ => .error path

/-- `bool` -/
def bool (v : Option Json) (path : String) : Except String (Option Json) :=
  match v with
  | none | some .null => .ok none
  | some (.bool b) => .ok (some (.bool b))
  | some _ => .error path

/-- `list`; an element that its check lets through is never undefined. -/
def list (v : Option Json) (max : ℕ) (path : String) (each : Checker) : Except String (Option Json) :=
  match v with
  | none | some .null => .ok none
  | some (.arr xs) =>
    ((xs.take max).zipIdx.mapM fun x => each (some x.1) (path ++ "[" ++ toString x.2 ++ "]")).map fun ys =>
      some (.arr (ys.map fun y => y.getD .null))
  | some _ => .error path

/-- `obj` -/
def obj (v : Option Json) (path : String) (build : Json → String → Except String Json) (optional : Bool) :
    Except String (Option Json) :=
  match v with
  | none => if optional then .ok none else .error path
  | some .null => if optional then .ok (some .null) else .error path
  | some (.obj m) => (build (.obj m) path).map some
  | some _ => .error path

/-- `clean({ k: check(x.k, p.k), … })` -/
def members (fields : List (String × Checker)) (x : Json) (p : String) : Except String Json :=
  (fields.mapM fun (f : String × Checker) => (f.2 (x.get (js f.1)) (p ++ "." ++ f.1)).map fun w => (js f.1, w)).map fun ms =>
    .obj (Json.clean ms)

/-! ### Lists of checks -/

section
variable {α β ε : Type*} {f : α → Except ε β}

theorem mapM_eq_ok {l : List α} {ys : List β} (h : l.mapM f = .ok ys) :
    List.Forall₂ (fun x y => f x = .ok y) l ys := by
  induction l generalizing ys with
  | nil =>
    cases h
    exact .nil
  | cons x l ih =>
    rw [List.mapM_cons] at h
    cases hx : f x with
    | error e =>
      rw [hx] at h
      cases h
    | ok y =>
      rw [hx] at h
      cases hl : l.mapM f with
      | error e =>
        rw [hl] at h
        cases h
      | ok zs =>
        rw [hl] at h
        cases h
        exact .cons hx (ih hl)

/-- What comes out comes of an element. -/
theorem of_mapM_eq_ok {l : List α} {ys : List β} (h : l.mapM f = .ok ys) :
    ys.length = l.length ∧ ∀ y ∈ ys, ∃ x ∈ l, f x = .ok y := by
  have hall := mapM_eq_ok h
  clear h
  refine ⟨hall.length_eq.symm, ?_⟩
  induction hall with
  | nil => exact fun y hy => absurd hy List.not_mem_nil
  | cons hx _ ih =>
    intro y hy
    rcases List.mem_cons.1 hy with rfl | hy
    · exact ⟨_, List.mem_cons_self, hx⟩
    · obtain ⟨x, hm, hxy⟩ := ih y hy
      exact ⟨x, List.mem_cons_of_mem _ hm, hxy⟩

/-- Every element comes out. -/
theorem mem_of_mapM_eq_ok {l : List α} {ys : List β} (h : l.mapM f = .ok ys) {x : α} (hx : x ∈ l) :
    ∃ y ∈ ys, f x = .ok y := by
  have hall := mapM_eq_ok h
  clear h
  induction hall with
  | nil => cases hx
  | cons hxy _ ih =>
    rcases List.mem_cons.1 hx with rfl | hx
    · exact ⟨_, List.mem_cons_self, hxy⟩
    · obtain ⟨y, hm, hy⟩ := ih hx
      exact ⟨y, List.mem_cons_of_mem _ hm, hy⟩

private theorem mapM_eq_error {l : List α} {e : ε} (h : l.mapM f = .error e) : ∃ x ∈ l, f x = .error e := by
  induction l with
  | nil => cases h
  | cons x l ih =>
    rw [List.mapM_cons] at h
    cases hx : f x with
    | error e' =>
      rw [hx] at h
      cases h
      exact ⟨x, List.mem_cons_self, hx⟩
    | ok y =>
      rw [hx] at h
      cases hl : l.mapM f with
      | error e' =>
        rw [hl] at h
        cases h
        obtain ⟨x', hm, hx'⟩ := ih hl
        exact ⟨x', List.mem_cons_of_mem _ hm, hx'⟩
      | ok zs =>
        rw [hl] at h
        cases h

/-- Functions that throw the same throw the same on a list. -/
theorem mapM_error_congr {f' : α → Except ε β} {l : List α} (h : ∀ x ∈ l, ∀ e, f x = .error e ↔ f' x = .error e)
    (e : ε) : l.mapM f = .error e ↔ l.mapM f' = .error e := by
  induction l with
  | nil => exact Iff.rfl
  | cons x l ih =>
    have hx := h x List.mem_cons_self
    have hl := ih fun y hy => h y (List.mem_cons_of_mem _ hy)
    rw [List.mapM_cons, List.mapM_cons]
    cases hf : f x with
    | error e' => rw [(hx e').1 hf]; rfl
    | ok y =>
      cases hf' : f' x with
      | error e' =>
        rw [(hx e').2 hf'] at hf
        cases hf
      | ok y' =>
        have herror : ∀ (r : Except ε (List β)) (z : β), (do let ys ← r; pure (z :: ys) : Except ε (List β)) = .error e ↔
            r = .error e := by
          intro r z
          cases r <;> constructor <;> intro hr <;> cases hr <;> rfl
        exact (herror _ y).trans (hl.trans (herror _ y').symm)

theorem mapM_of_forall {l : List α} {g : α → β} (h : ∀ x ∈ l, f x = .ok (g x)) : l.mapM f = .ok (l.map g) := by
  induction l with
  | nil => rfl
  | cons x l ih =>
    rw [List.mapM_cons, h x List.mem_cons_self, ih fun y hy => h y (List.mem_cons_of_mem _ hy)]
    rfl

end

/-! ### Checks -/

/-- A check and what it lets through. -/
structure Check where
  run : Checker
  Fits : Option Json → Prop
  sound : ∀ v p w, run v p = .ok w → Fits w
  stable : ∀ w p, Fits w → run w p = .ok w
  names : ∀ v p e, run v p = .error e → ∃ t, e = p ++ t

namespace Check

private theorem path_self (p : String) : ∃ t, p = p ++ t := ⟨"", String.append_empty.symm⟩

/-- No longer than `max`, and without control characters. -/
def Text (max : ℕ) (s : JsString) : Prop := s.length ≤ max ∧ ∀ u ∈ s, ¬ (u < 0x20 ∨ u = 0x7f)

private theorem text_blank (max : ℕ) (s : JsString) : Text max ((s.map blank).take max) := by
  refine ⟨List.length_take_le _ _, fun u hu => ?_⟩
  obtain ⟨v, -, rfl⟩ := List.mem_map.1 (List.mem_of_mem_take hu)
  unfold blank
  split
  · decide
  · rename_i hv
    rwa [Bool.or_eq_true, decide_eq_true_eq, beq_iff_eq] at hv

private theorem blank_of_text {max : ℕ} {s : JsString} (h : Text max s) : (s.map blank).take max = s := by
  have hmap : s.map blank = s := by
    conv_rhs => rw [← List.map_id s]
    apply List.map_congr_left
    intro u hu
    unfold blank
    rw [if_neg]
    · rfl
    · rw [Bool.or_eq_true, decide_eq_true_eq, beq_iff_eq]
      exact h.2 u hu
  rw [hmap, List.take_of_length_le h.1]

/-- A string, cut to its limit. -/
def str (max : ℕ) (optional : Bool) : Check where
  run v p := Snapshot.str v max p optional
  Fits w := (w = none ∧ optional = true) ∨ ∃ s, w = some (.str s) ∧ Text max s
  sound v p w h := by
    unfold Snapshot.str at h
    split at h
    · split at h <;> cases h
      exact Or.inl ⟨rfl, ‹_›⟩
    · split at h <;> cases h
      exact Or.inl ⟨rfl, ‹_›⟩
    · cases h
      exact Or.inr ⟨_, rfl, text_blank max _⟩
    · cases h
  stable w p h := by
    rcases h with ⟨rfl, ho⟩ | ⟨s, rfl, hs⟩
    · exact if_pos ho
    · exact congrArg (fun s => Except.ok (some (Json.str s))) (blank_of_text hs)
  names v p e h := by
    unfold Snapshot.str at h
    split at h
    · split at h <;> cases h
      exact path_self p
    · split at h <;> cases h
      exact path_self p
    · cases h
    · cases h
      exact path_self p

/-- A finite number in its range, or null where the options allow it. -/
def num (lo hi : ℚ) (o : NumOptions) : Check where
  run v p := Snapshot.num v lo hi p o
  Fits w := (w = none ∧ o.optional = true) ∨ (w = some .null ∧ (o.nullable || o.optional) = true) ∨
    ∃ x, w = some (.num (some x)) ∧ lo ≤ x ∧ x ≤ hi ∧ (o.int = true → x.isInt = true)
  sound v p w h := by
    unfold Snapshot.num at h
    split at h
    · split at h <;> cases h
      exact Or.inl ⟨rfl, ‹_›⟩
    · split at h <;> cases h
      exact Or.inr (Or.inl ⟨rfl, ‹_›⟩)
    · rename_i x
      split at h
      · cases h
      · rename_i hrange
        rw [not_or, not_lt, not_lt] at hrange
        split at h <;> cases h
        rename_i hint
        exact Or.inr (Or.inr ⟨x, rfl, hrange.1, hrange.2, by simpa using hint⟩)
    · cases h
  stable w p h := by
    rcases h with ⟨rfl, ho⟩ | ⟨rfl, ho⟩ | ⟨x, rfl, hlo, hhi, hint⟩
    · exact if_pos ho
    · exact if_pos ho
    · have hrange : ¬ (x < lo ∨ hi < x) := by
        rw [not_or, not_lt, not_lt]
        exact ⟨hlo, hhi⟩
      have hno : ¬ ((o.int && !x.isInt) = true) := by simpa using hint
      exact (if_neg hrange).trans (if_neg hno)
  names v p e h := by
    unfold Snapshot.num at h
    split at h
    · split at h <;> cases h
      exact path_self p
    · split at h <;> cases h
      exact path_self p
    · split at h
      · cases h
        exact path_self p
      · split at h <;> cases h
        exact path_self p
    · cases h
      exact path_self p

def oneOf (allowed : List JsString) : Check where
  run v p := Snapshot.oneOf v allowed p
  Fits w := w = none ∨ ∃ s ∈ allowed, w = some (.str s)
  sound v p w h := by
    unfold Snapshot.oneOf at h
    split at h
    · cases h
      exact Or.inl rfl
    · cases h
      exact Or.inl rfl
    · split at h <;> cases h
      rename_i s hs
      exact Or.inr ⟨s, List.contains_iff_mem.1 hs, rfl⟩
    · cases h
  stable w p h := by
    rcases h with rfl | ⟨s, hs, rfl⟩
    · rfl
    · exact if_pos (List.contains_iff_mem.2 hs)
  names v p e h := by
    unfold Snapshot.oneOf at h
    split at h
    · cases h
    · cases h
    · split at h <;> cases h
      exact path_self p
    · cases h
      exact path_self p

def bool : Check where
  run v p := Snapshot.bool v p
  Fits w := w = none ∨ ∃ b, w = some (.bool b)
  sound v p w h := by
    unfold Snapshot.bool at h
    split at h <;> cases h
    · exact Or.inl rfl
    · exact Or.inl rfl
    · exact Or.inr ⟨_, rfl⟩
  stable w p h := by
    rcases h with rfl | ⟨b, rfl⟩ <;> rfl
  names v p e h := by
    unfold Snapshot.bool at h
    split at h <;> cases h
    exact path_self p

/-- `v === null ? null : check(v)` -/
def orNull (c : Check) : Check where
  run v p := match v with
    | some .null => .ok (some .null)
    | v => c.run v p
  Fits w := w = some .null ∨ c.Fits w
  sound v p w h := by
    split at h
    · cases h
      exact Or.inl rfl
    · exact Or.inr (c.sound v p w h)
  stable w p h := by
    split
    · rfl
    · rcases h with rfl | h
      · rename_i hne
        exact absurd rfl hne
      · exact c.stable w p h
  names v p e h := by
    split at h
    · cases h
    · exact c.names v p e h

/-- A list, cut to its limit, of elements that are there. -/
def list (max : ℕ) (c : Check) (hc : ¬ c.Fits none) : Check where
  run v p := Snapshot.list v max p c.run
  Fits w := w = none ∨ ∃ xs, w = some (.arr xs) ∧ xs.length ≤ max ∧ ∀ x ∈ xs, c.Fits (some x)
  sound v p w h := by
    unfold Snapshot.list at h
    split at h
    · cases h
      exact Or.inl rfl
    · cases h
      exact Or.inl rfl
    · rename_i xs
      cases hm : (xs.take max).zipIdx.mapM (fun x => c.run (some x.1) (p ++ "[" ++ toString x.2 ++ "]")) with
      | error e =>
        rw [hm] at h
        cases h
      | ok ys =>
        rw [hm] at h
        cases h
        obtain ⟨hlen, hys⟩ := of_mapM_eq_ok hm
        refine Or.inr ⟨_, rfl, ?_, fun x hx => ?_⟩
        · rw [List.length_map, hlen, List.length_zipIdx]
          exact List.length_take_le _ _
        · obtain ⟨y, hy, rfl⟩ := List.mem_map.1 hx
          obtain ⟨x, -, hrun⟩ := hys y hy
          have hfits := c.sound _ _ _ hrun
          cases y with
          | none => exact absurd hfits hc
          | some z => exact hfits
    · cases h
  stable w p h := by
    rcases h with rfl | ⟨xs, rfl, hlen, hxs⟩
    · rfl
    · have hrun : (xs.take max).zipIdx.mapM (fun x => c.run (some x.1) (p ++ "[" ++ toString x.2 ++ "]")) =
          .ok ((xs.take max).zipIdx.map fun x => some x.1) := by
        apply mapM_of_forall
        intro x hx
        apply c.stable
        apply hxs
        exact List.mem_of_mem_take (List.fst_mem_of_mem_zipIdx hx)
      have hback : ((xs.take max).zipIdx.map fun x => some x.1).map (fun y => y.getD .null) = xs := by
        rw [List.map_map]
        exact (List.zipIdx_map_fst 0 _).trans (List.take_of_length_le hlen)
      unfold Snapshot.list
      dsimp only
      rw [hrun]
      exact congrArg (fun ys => Except.ok (some (Json.arr ys))) hback
  names v p e h := by
    unfold Snapshot.list at h
    split at h
    · cases h
    · cases h
    · rename_i xs
      cases hm : (xs.take max).zipIdx.mapM (fun x => c.run (some x.1) (p ++ "[" ++ toString x.2 ++ "]")) with
      | error e' =>
        rw [hm] at h
        cases h
        obtain ⟨x, -, hx⟩ := mapM_eq_error hm
        obtain ⟨t, rfl⟩ := c.names _ _ _ hx
        exact ⟨"[" ++ toString x.2 ++ "]" ++ t, by simp only [String.append_assoc]⟩
      | ok ys =>
        rw [hm] at h
        cases h
    · cases h
      exact path_self p

/-! ### Objects -/

/-- The members of an object: all of the names, in their order, and each fits. -/
def Record (fields : List (String × Check)) (w : Json) : Prop :=
  ∃ m, w = .obj m ∧ (m.map Prod.fst).Sublist (fields.map fun f => js f.1) ∧
    ∀ f ∈ fields, f.2.Fits (Json.member m (js f.1))

/-- The members that checks with names give. -/
def build (fields : List (String × Check)) : Json → String → Except String Json :=
  members (fields.map fun f => (f.1, f.2.run))

/-- One member, checked. -/
def field (x : Json) (p : String) (f : String × Check) : Except String (JsString × Option Json) :=
  (f.2.run (x.get (js f.1)) (p ++ "." ++ f.1)).map fun w => (js f.1, w)

variable {fields : List (String × Check)} {x w : Json} {p : String}

private theorem build_eq (fields : List (String × Check)) (x : Json) (p : String) :
    build fields x p = (fields.mapM (field x p)).map fun ms => .obj (Json.clean ms) := by
  unfold build members
  rw [List.mapM_map]
  rfl

private theorem field_eq_ok {f : String × Check} {y : JsString × Option Json} (h : field x p f = .ok y) :
    y.1 = js f.1 ∧ f.2.Fits y.2 := by
  unfold field at h
  cases hrun : f.2.run (x.get (js f.1)) (p ++ "." ++ f.1) with
  | error e =>
    rw [hrun] at h
    cases h
  | ok w =>
    rw [hrun] at h
    cases h
    exact ⟨rfl, f.2.sound _ _ _ hrun⟩

private theorem build_sound (hnodup : (fields.map fun f => js f.1).Nodup) (h : build fields x p = .ok w) :
    Record fields w := by
  rw [build_eq] at h
  cases hm : fields.mapM (field x p) with
  | error e =>
    rw [hm] at h
    cases h
  | ok ms =>
    rw [hm] at h
    cases h
    have hkeys : ms.map Prod.fst = fields.map fun f => js f.1 := by
      have hall := mapM_eq_ok hm
      clear hm hnodup
      induction hall with
      | nil => rfl
      | cons hy _ ih => rw [List.map_cons, List.map_cons, ih, (field_eq_ok hy).1]
    refine ⟨_, rfl, ?_, fun g hg => ?_⟩
    · rw [← hkeys]
      exact Json.clean_keys ms
    · obtain ⟨y, hy, hgy⟩ := mem_of_mapM_eq_ok hm hg
      obtain ⟨hkey, hfits⟩ := field_eq_ok hgy
      have hy : (js g.1, y.2) ∈ ms := by
        rw [← hkey]
        exact hy
      rw [Json.member_clean (hkeys ▸ hnodup) hy]
      exact hfits

private theorem build_stable (hnodup : (fields.map fun f => js f.1).Nodup) (p : String) (h : Record fields w) :
    build fields w p = .ok w := by
  obtain ⟨m, rfl, hsub, hfits⟩ := h
  rw [build_eq]
  have hrun : fields.mapM (field (.obj m) p) = .ok (fields.map fun f => (js f.1, Json.member m (js f.1))) := by
    apply mapM_of_forall
    intro f hf
    rw [field, Json.get_obj, f.2.stable _ _ (hfits f hf)]
    rfl
  rw [hrun]
  have hback := Json.clean_of_sublist hnodup hsub
  rw [List.map_map] at hback
  exact congrArg (fun m => Except.ok (Json.obj m)) hback

private theorem build_names {e : String} (h : build fields x p = .error e) : ∃ t, e = p ++ t := by
  rw [build_eq] at h
  cases hm : fields.mapM (field x p) with
  | ok ms =>
    rw [hm] at h
    cases h
  | error e' =>
    rw [hm] at h
    cases h
    obtain ⟨f, -, hf⟩ := mapM_eq_error hm
    unfold field at hf
    cases hrun : f.2.run (x.get (js f.1)) (p ++ "." ++ f.1) with
    | ok w =>
      rw [hrun] at hf
      cases hf
    | error e' =>
      rw [hrun] at hf
      cases hf
      obtain ⟨t, rfl⟩ := f.2.names _ _ _ hrun
      exact ⟨"." ++ f.1 ++ t, by simp only [String.append_assoc]⟩

/-- An object, of the members with these names. -/
def obj (fields : List (String × Check)) (optional : Bool) (hnodup : (fields.map fun f => js f.1).Nodup) : Check where
  run v p := Snapshot.obj v p (build fields) optional
  Fits w := ((w = none ∨ w = some .null) ∧ optional = true) ∨ ∃ x, w = some x ∧ Record fields x
  sound v p w h := by
    unfold Snapshot.obj at h
    split at h
    · split at h <;> cases h
      exact Or.inl ⟨Or.inl rfl, ‹_›⟩
    · split at h <;> cases h
      exact Or.inl ⟨Or.inr rfl, ‹_›⟩
    · rename_i m
      cases hb : build fields (.obj m) p with
      | error e =>
        rw [hb] at h
        cases h
      | ok x =>
        rw [hb] at h
        cases h
        exact Or.inr ⟨x, rfl, build_sound hnodup hb⟩
    · cases h
  stable w p h := by
    rcases h with ⟨rfl | rfl, ho⟩ | ⟨x, rfl, hx⟩
    · exact if_pos ho
    · exact if_pos ho
    · have hb := build_stable hnodup p hx
      obtain ⟨m, rfl, -⟩ := hx
      exact congrArg (Except.map some) hb
  names v p e h := by
    unfold Snapshot.obj at h
    split at h
    · split at h <;> cases h
      exact path_self p
    · split at h <;> cases h
      exact path_self p
    · rename_i m
      cases hb : build fields (.obj m) p with
      | error e' =>
        rw [hb] at h
        cases h
        exact build_names hb
      | ok x =>
        rw [hb] at h
        cases h
    · cases h
      exact path_self p

end Check

end Snapshot

end Servitals
