import Mathlib

/-!
# JavaScript strings

A JavaScript string is a list of UTF-16 code units: a name cut in the middle of a surrogate pair stays a string,
which no list of Unicode characters can say.  `js` turns a literal into its code units.
-/

namespace Servitals

/-- A JavaScript string: its UTF-16 code units, lone surrogates included. -/
abbrev JsString := List UInt16

/-- The code units of one character. -/
def utf16 (c : Char) : JsString :=
  if c.toNat < 0x10000 then [UInt16.ofNat c.toNat]
  else [UInt16.ofNat (0xd800 + (c.toNat - 0x10000) / 0x400), UInt16.ofNat (0xdc00 + (c.toNat - 0x10000) % 0x400)]

/-- The code units of a literal. -/
def js (s : String) : JsString := s.toList.flatMap utf16

/-- Is the code unit `u` between the characters `a` and `b`, as in the class `[a-b]` of a regular expression? -/
def unitIn (a b : Char) (u : UInt16) : Bool := a.toNat ≤ u.toNat && u.toNat ≤ b.toNat

/-- White space and line ends, as `trim` takes them off. -/
def isSpace (u : UInt16) : Bool :=
  unitIn '\t' '\r' u || u == 0x20 || u == 0xa0 || u == 0x1680 || (0x2000 ≤ u && u ≤ 0x200a) || u == 0x2028 ||
    u == 0x2029 || u == 0x202f || u == 0x205f || u == 0x3000 || u == 0xfeff

/-- `s.trim()`. -/
def trim (s : JsString) : JsString := ((s.dropWhile isSpace).reverse.dropWhile isSpace).reverse

def lowerUnit (u : UInt16) : UInt16 := if unitIn 'A' 'Z' u then u + 0x20 else u

/-- `s.toLowerCase()` on the letters A to Z. -/
def lower (s : JsString) : JsString := s.map lowerUnit

/-- `s.split(sep)` for a separator of one code unit. -/
def split (sep : UInt16) : JsString → List JsString
  | [] => [[]]
  | u :: s =>
    if u = sep then [] :: split sep s
    else match split sep s with
      | p :: ps => (u :: p) :: ps
      | [] => [[u]]

/-- The code unit of `|`, which joins the parts of an alert's key. -/
def bar : UInt16 := 0x7c

/-! ### Joining with a separator -/

/-- A separator that is in neither `a` nor `c` splits `a ++ sep :: b` in one way only. -/
theorem append_sep_inj {α : Type*} {sep : α} {a b c d : List α} (ha : sep ∉ a) (hc : sep ∉ c)
    (h : a ++ sep :: b = c ++ sep :: d) : a = c ∧ b = d := by
  induction a generalizing c with
  | nil =>
    cases c with
    | nil => simpa using h
    | cons x c =>
      simp only [List.nil_append, List.cons_append, List.cons.injEq] at h
      exact absurd (by simp [h.1]) hc
  | cons x a ih =>
    cases c with
    | nil =>
      simp only [List.nil_append, List.cons_append, List.cons.injEq] at h
      exact absurd (by simp [h.1]) ha
    | cons y c =>
      simp only [List.cons_append, List.cons.injEq] at h
      obtain ⟨rfl, h⟩ := h
      obtain ⟨rfl, rfl⟩ := ih (fun hm => ha (by simp [hm])) (fun hm => hc (by simp [hm])) h
      exact ⟨rfl, rfl⟩

theorem unitIn_iff {a b : Char} {u : UInt16} : unitIn a b u = true ↔ a.toNat ≤ u.toNat ∧ u.toNat ≤ b.toNat := by
  rw [unitIn, Bool.and_eq_true, decide_eq_true_eq, decide_eq_true_eq]

theorem unitIn_eq_false_iff {a b : Char} {u : UInt16} :
    unitIn a b u = false ↔ u.toNat < a.toNat ∨ b.toNat < u.toNat := by
  rw [← Bool.not_eq_true, unitIn_iff, not_and_or, not_le, not_le]

/-- A printable character of ASCII is no white space. -/
theorem isSpace_eq_false {u : UInt16} (hlo : 0x20 < u.toNat) (hhi : u.toNat < 0x80) : isSpace u = false := by
  have hne : ∀ v : UInt16, v.toNat ≤ 0x20 ∨ 0x80 ≤ v.toNat → u ≠ v := by
    rintro v hv rfl
    omega
  have hle : (0x2000 ≤ u) = False := by
    rw [UInt16.le_iff_toNat_le]
    simp only [eq_iff_iff, iff_false, not_le]
    exact lt_of_lt_of_le hhi (by decide)
  have hcontrol : unitIn '\t' '\r' u = false := by
    rw [unitIn_eq_false_iff, show '\r'.toNat = 13 from rfl]
    omega
  simp [isSpace, hcontrol, hle, hne 0x20 (by decide), hne 0xa0 (by decide), hne 0x1680 (by decide),
    hne 0x2028 (by decide), hne 0x2029 (by decide), hne 0x202f (by decide), hne 0x205f (by decide),
    hne 0x3000 (by decide), hne 0xfeff (by decide)]

/-! ### Lower case -/

theorem toNat_lowerUnit (u : UInt16) :
    (lowerUnit u).toNat = if 0x41 ≤ u.toNat ∧ u.toNat ≤ 0x5a then u.toNat + 0x20 else u.toNat := by
  by_cases h : unitIn 'A' 'Z' u = true
  · have hu := unitIn_iff.1 h
    simp only [show 'A'.toNat = 0x41 from rfl, show 'Z'.toNat = 0x5a from rfl] at hu
    rw [lowerUnit, if_pos h, if_pos hu, UInt16.toNat_add, show (0x20 : UInt16).toNat = 0x20 from rfl]
    omega
  · have hu := unitIn_iff.not.1 h
    simp only [show 'A'.toNat = 0x41 from rfl, show 'Z'.toNat = 0x5a from rfl] at hu
    rw [lowerUnit, if_neg h, if_neg hu]

/-- A code unit that is no letter is only the lower case of itself. -/
theorem lowerUnit_eq_iff {u v : UInt16} (hv : v.toNat < 0x41) : lowerUnit u = v ↔ u = v := by
  rw [← UInt16.toNat_inj, ← UInt16.toNat_inj, toNat_lowerUnit]
  split <;> omega

theorem lowerUnit_eq_self {u : UInt16} (h : u.toNat < 0x41 ∨ 0x5a < u.toNat) : lowerUnit u = u := by
  rw [← UInt16.toNat_inj, toNat_lowerUnit, if_neg (by omega)]

/-! ### Splitting and trimming -/

theorem split_ne_nil (sep : UInt16) (s : JsString) : split sep s ≠ [] := by
  cases s with
  | nil => exact List.cons_ne_nil _ _
  | cons u s =>
    unfold split
    split
    · exact List.cons_ne_nil _ _
    · split <;> exact List.cons_ne_nil _ _

theorem split_lower {sep : UInt16} (hsep : sep.toNat < 0x41) (s : JsString) :
    split sep (lower s) = (split sep s).map lower := by
  induction s with
  | nil => rfl
  | cons u s ih =>
    rw [lower, List.map_cons, split, split, show s.map lowerUnit = lower s from rfl, ih]
    by_cases h : u = sep
    · rw [if_pos ((lowerUnit_eq_iff hsep).2 h), if_pos h]
      rfl
    · rw [if_neg ((lowerUnit_eq_iff hsep).not.2 h), if_neg h]
      cases split sep s <;> rfl

/-- A code unit of a string is the separator or in one of the parts. -/
theorem mem_split (sep : UInt16) {u : UInt16} {s : JsString} (h : u ∈ s) : u = sep ∨ ∃ p ∈ split sep s, u ∈ p := by
  induction s with
  | nil => cases h
  | cons v s ih =>
    rw [split]
    by_cases hv : v = sep
    · rw [if_pos hv]
      rcases List.mem_cons.1 h with rfl | h
      · exact Or.inl hv
      · exact (ih h).imp id fun ⟨p, hp, hu⟩ => ⟨p, List.mem_cons_of_mem _ hp, hu⟩
    · rw [if_neg hv]
      cases hs : split sep s with
      | nil => exact absurd hs (split_ne_nil sep s)
      | cons p ps =>
        rw [hs] at ih
        rcases List.mem_cons.1 h with rfl | h
        · exact Or.inr ⟨u :: p, List.mem_cons_self, List.mem_cons_self⟩
        · rcases ih h with hsep | ⟨q, hq, hu⟩
          · exact Or.inl hsep
          · rcases List.mem_cons.1 hq with rfl | hq
            · exact Or.inr ⟨v :: q, List.mem_cons_self, List.mem_cons_of_mem _ hu⟩
            · exact Or.inr ⟨q, List.mem_cons_of_mem _ hq, hu⟩

/-- A string without the separator is its only part. -/
theorem split_of_notMem {sep : UInt16} {s : JsString} (h : sep ∉ s) : split sep s = [s] := by
  induction s with
  | nil => rfl
  | cons u s ih =>
    simp only [List.mem_cons, not_or] at h
    unfold split
    rw [if_neg (Ne.symm h.1), ih h.2]

/-- A part without the separator, then the separator: it is the first part. -/
theorem split_append_cons {sep : UInt16} {a : JsString} (h : sep ∉ a) (b : JsString) :
    split sep (a ++ sep :: b) = a :: split sep b := by
  induction a with
  | nil =>
    rw [List.nil_append]
    conv_lhs => unfold split
    rw [if_pos rfl]
  | cons u a ih =>
    simp only [List.mem_cons, not_or] at h
    rw [List.cons_append]
    conv_lhs => unfold split
    rw [if_neg (Ne.symm h.1), ih h.2]

theorem intercalate_cons (sep : UInt16) (p : JsString) {ps : List JsString} (h : ps ≠ []) :
    [sep].intercalate (p :: ps) = p ++ sep :: [sep].intercalate ps := by
  cases ps with
  | nil => exact absurd rfl h
  | cons q ps => simp [List.intercalate, List.intersperse]

theorem intercalate_singleton (sep : UInt16) (p : JsString) : [sep].intercalate [p] = p := by simp [List.intercalate]

theorem intercalate_append (sep : UInt16) {ps qs : List JsString} (hp : ps ≠ []) (hq : qs ≠ []) :
    [sep].intercalate (ps ++ qs) = [sep].intercalate ps ++ sep :: [sep].intercalate qs := by
  induction ps with
  | nil => exact absurd rfl hp
  | cons p ps ih =>
    by_cases hps : ps = []
    · rw [hps, List.singleton_append, intercalate_cons sep p hq, intercalate_singleton]
    · rw [List.cons_append, intercalate_cons sep p (List.append_ne_nil_of_left_ne_nil hps qs), ih hps,
        intercalate_cons sep p hps, List.append_assoc, List.cons_append]

/-- The parts of a string, with the separator between them, make it. -/
theorem intercalate_split (sep : UInt16) (s : JsString) : [sep].intercalate (split sep s) = s := by
  induction s with
  | nil => exact intercalate_singleton sep []
  | cons u s ih =>
    rw [split]
    by_cases hu : u = sep
    · rw [if_pos hu, intercalate_cons sep _ (split_ne_nil _ _), ih, hu, List.nil_append]
    · rw [if_neg hu]
      cases hs : split sep s with
      | nil => exact absurd hs (split_ne_nil _ _)
      | cons p ps =>
        rw [hs] at ih
        rw [← ih]
        cases ps with
        | nil => rw [intercalate_singleton, intercalate_singleton]
        | cons q ps =>
          rw [intercalate_cons sep _ (List.cons_ne_nil _ _), intercalate_cons sep _ (List.cons_ne_nil _ _),
            List.cons_append]

theorem mem_intercalate {sep u : UInt16} {ws : List JsString} (h : u ∈ [sep].intercalate ws) :
    u = sep ∨ ∃ w ∈ ws, u ∈ w := by
  induction ws with
  | nil => cases h
  | cons w ws ih =>
    by_cases hws : ws = []
    · rw [hws, intercalate_singleton] at h
      exact Or.inr ⟨w, List.mem_cons_self, h⟩
    · rw [intercalate_cons sep w hws, List.mem_append, List.mem_cons] at h
      rcases h with h | h | h
      · exact Or.inr ⟨w, List.mem_cons_self, h⟩
      · exact Or.inl h
      · exact (ih h).imp_right fun ⟨x, hx, hu⟩ => ⟨x, List.mem_cons_of_mem w hx, hu⟩

theorem split_intercalate {sep : UInt16} {ws : List JsString} (hne : ws ≠ []) (h : ∀ w ∈ ws, sep ∉ w) :
    split sep ([sep].intercalate ws) = ws := by
  induction ws with
  | nil => exact absurd rfl hne
  | cons w ws ih =>
    have hw := h w List.mem_cons_self
    by_cases hws : ws = []
    · rw [hws, intercalate_singleton, split_of_notMem hw]
    · rw [intercalate_cons sep w hws, split_append_cons hw, ih hws fun x hx => h x (List.mem_cons_of_mem w hx)]

/-- What is before a separator and what is after it are split apart. -/
theorem split_append (sep : UInt16) (a b : JsString) : split sep (a ++ sep :: b) = split sep a ++ split sep b := by
  induction a with
  | nil => exact if_pos rfl
  | cons u a ih =>
    rw [List.cons_append, split, split, ih]
    by_cases hu : u = sep
    · rw [if_pos hu, if_pos hu, List.cons_append]
    · rw [if_neg hu, if_neg hu]
      cases hs : split sep a with
      | nil => exact absurd hs (split_ne_nil sep a)
      | cons p ps => rfl

/-- The first part is the whole string, or what is before the first separator. -/
theorem split_eq_cons {sep : UInt16} {s a : JsString} {ps : List JsString} (h : split sep s = a :: ps) :
    (ps = [] ∧ s = a ∧ sep ∉ a) ∨ ∃ b, s = a ++ sep :: b ∧ sep ∉ a ∧ split sep b = ps := by
  by_cases hmem : sep ∈ s
  · obtain ⟨a', b, rfl, ha'⟩ := List.eq_append_cons_of_mem hmem
    rw [split_append_cons ha'] at h
    obtain ⟨rfl, hps⟩ := List.cons.inj h
    exact Or.inr ⟨b, rfl, ha', hps⟩
  · rw [split_of_notMem hmem] at h
    obtain ⟨rfl, rfl⟩ := List.cons.inj h
    exact Or.inl ⟨rfl, rfl, hmem⟩

private theorem dropWhile_eq_self {p : UInt16 → Bool} {s : JsString} (h : ∀ u ∈ s.head?, p u = false) :
    s.dropWhile p = s := by
  cases s with
  | nil => rfl
  | cons u s => rw [List.dropWhile_cons_of_neg (by simp [h u rfl])]

theorem head?_dropWhile (p : UInt16 → Bool) (s : JsString) : ∀ u ∈ (s.dropWhile p).head?, p u = false := by
  intro u hu
  have := List.head?_dropWhile_not p s
  rw [hu] at this
  simpa using this

/-- A string without white space at its ends is what `trim` leaves. -/
private theorem trim_eq_self {s : JsString} (hhead : ∀ u ∈ s.head?, isSpace u = false)
    (hlast : ∀ u ∈ s.getLast?, isSpace u = false) : trim s = s := by
  rw [trim, dropWhile_eq_self hhead, dropWhile_eq_self (by rwa [List.head?_reverse]), List.reverse_reverse]

/-- A string without white space is what `trim` leaves. -/
theorem trim_of_all {s : JsString} (h : ∀ u ∈ s, isSpace u = false) : trim s = s :=
  trim_eq_self (fun u hu => h u (List.mem_of_mem_head? hu)) (fun u hu => h u (List.mem_of_mem_getLast? hu))

private theorem head?_trim (s : JsString) : ∀ u ∈ (trim s).head?, isSpace u = false := by
  intro u hu
  have hsub : ∀ u ∈ (s.dropWhile isSpace).head?, isSpace u = false := head?_dropWhile isSpace s
  unfold trim at hu
  rw [List.head?_reverse] at hu
  generalize s.dropWhile isSpace = t at hsub hu
  cases t with
  | nil => simp at hu
  | cons v t =>
    have hv : isSpace v = false := hsub v rfl
    have hlast : ((v :: t).reverse.dropWhile isSpace).getLast? = some v := by
      rw [List.reverse_cons, List.dropWhile_append]
      split
      · rw [List.dropWhile_cons_of_neg (by simp [hv])]
        rfl
      · simp
    rw [hlast, Option.mem_some_iff] at hu
    exact hu ▸ hv

private theorem getLast?_trim (s : JsString) : ∀ u ∈ (trim s).getLast?, isSpace u = false := by
  intro u hu
  rw [trim, List.getLast?_reverse] at hu
  exact head?_dropWhile isSpace _ u hu

theorem trim_sublist (s : JsString) : (trim s).Sublist s := by
  have hhead : (s.dropWhile isSpace).Sublist s := List.dropWhile_sublist _
  have hlast : ((s.dropWhile isSpace).reverse.dropWhile isSpace).Sublist (s.dropWhile isSpace).reverse :=
    List.dropWhile_sublist _
  have hback := hlast.reverse
  rw [List.reverse_reverse] at hback
  exact hback.trans hhead

@[simp]
theorem trim_trim (s : JsString) : trim (trim s) = trim s := trim_eq_self (head?_trim s) (getLast?_trim s)

/-! ### Node ids -/

/-- `NODE_ID`: `/^[a-z2-7]{12}$/`. -/
def isNodeId (s : JsString) : Bool := s.length == 12 && s.all fun u => unitIn 'a' 'z' u || unitIn '2' '7' u

/-- A string of the form the hub gives its nodes as ids. -/
abbrev NodeId := { s : JsString // isNodeId s = true }

theorem bar_notMem_nodeId (n : NodeId) : bar ∉ n.1 := by
  intro hm
  have h := n.2
  simp only [isNodeId, Bool.and_eq_true, List.all_eq_true] at h
  have := h.2 _ hm
  revert this
  decide

end Servitals
