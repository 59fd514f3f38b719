import Servitals.FileNames

/-!
# Text as bytes

`Buffer.from(s, "utf8")` and `buf.toString("utf8")`.  A half of a pair that stands alone is written as the replacement
character; the reader is the one of the web: a byte that fits no character is replaced, and so is a character that
breaks off, once for what was read of it.  It reads a text in pieces as it reads the whole when each piece ends between
two characters (`decodeUtf8_append`), and it reads back what was written (`decodeUtf8_encodeUtf8`).
-/

namespace Servitals

/-! ### Characters -/

/-- `Array.from(s)`: the characters of a string. -/
def chars : JsString → List JsString
  | u :: v :: s => if isHigh u && isLow v then [u, v] :: chars s else [u] :: chars (v :: s)
  | [u] => [[u]]
  | [] => []

theorem isHigh_iff {u : UInt16} : isHigh u = true ↔ 0xd800 ≤ u.toNat ∧ u.toNat ≤ 0xdbff := by
  rw [isHigh, Bool.and_eq_true, decide_eq_true_eq, decide_eq_true_eq, UInt16.le_iff_toNat_le, UInt16.le_iff_toNat_le]
  rfl

theorem isLow_iff {u : UInt16} : isLow u = true ↔ 0xdc00 ≤ u.toNat ∧ u.toNat ≤ 0xdfff := by
  rw [isLow, Bool.and_eq_true, decide_eq_true_eq, decide_eq_true_eq, UInt16.le_iff_toNat_le, UInt16.le_iff_toNat_le]
  rfl

theorem flatten_chars (s : JsString) : (chars s).flatten = s := by
  fun_induction chars s with
  | case1 u v s h ih => rw [List.flatten_cons, ih]; rfl
  | case2 u v s h ih => rw [List.flatten_cons, ih]; rfl
  | case3 u => rfl
  | case4 => rfl

/-- No character is made or lost where two strings meet, when the second begins with no half of a pair. -/
theorem chars_append {a b : JsString} (h : ∀ u ∈ b.head?, isLow u = false) : chars (a ++ b) = chars a ++ chars b := by
  fun_induction chars a with
  | case1 u v a hpair ih => rw [List.cons_append, List.cons_append, chars, if_pos hpair, ih]; rfl
  | case2 u v a hpair ih =>
    rw [List.cons_append, List.cons_append, chars, if_neg hpair, ← List.cons_append, ih]
    rfl
  | case3 u =>
    cases b with
    | nil => rfl
    | cons v b =>
      rw [List.singleton_append, chars, if_neg (by rw [h v rfl, Bool.and_false]; exact Bool.false_ne_true)]
      rfl
  | case4 => rfl

/-- The first characters of a string are those of the string they make. -/
theorem chars_take (s : JsString) (k : ℕ) : chars ((chars s).take k).flatten = (chars s).take k := by
  fun_induction chars s generalizing k with
  | case1 u v s hpair ih =>
    cases k with
    | zero => rfl
    | succ k =>
      rw [List.take_succ_cons, List.flatten_cons]
      show chars (u :: v :: ((chars s).take k).flatten) = _
      rw [chars, if_pos hpair, ih]
  | case2 u v s hpair ih =>
    cases k with
    | zero => rfl
    | succ k =>
      rw [List.take_succ_cons, List.flatten_cons]
      have hprefix : ((chars (v :: s)).take k).flatten <+: v :: s := by
        have h := (List.take_prefix k (chars (v :: s)))
        obtain ⟨rest, hrest⟩ := h
        refine ⟨rest.flatten, ?_⟩
        rw [← List.flatten_append, hrest, flatten_chars]
      conv_rhs => rw [← ih k]
      generalize ((chars (v :: s)).take k).flatten = t at hprefix
      cases t with
      | nil => rfl
      | cons w t =>
        obtain ⟨rest, hrest⟩ := hprefix
        obtain ⟨rfl, -⟩ := List.cons.inj hrest
        show chars (u :: w :: t) = [u] :: chars (w :: t)
        rw [chars, if_neg hpair]
  | case3 u =>
    cases k with
    | zero => rfl
    | succ k => rw [List.take_succ_cons, List.take_nil]; rfl
  | case4 => rw [List.take_nil]; rfl

/-- The characters from some character on are those of a tail of the string. -/
private theorem exists_chars_drop (s : JsString) (k : ℕ) : ∃ j, (chars s).drop k = chars (s.drop j) := by
  fun_induction chars s generalizing k with
  | case1 u v s hpair ih =>
    cases k with
    | zero => exact ⟨0, (if_pos hpair).symm⟩
    | succ k =>
      obtain ⟨j, hj⟩ := ih k
      exact ⟨j + 2, hj⟩
  | case2 u v s hpair ih =>
    cases k with
    | zero => exact ⟨0, (if_neg hpair).symm⟩
    | succ k =>
      obtain ⟨j, hj⟩ := ih k
      exact ⟨j + 1, hj⟩
  | case3 u =>
    cases k with
    | zero => exact ⟨0, rfl⟩
    | succ k => exact ⟨1, List.drop_nil⟩
  | case4 => exact ⟨0, List.drop_nil⟩

/-- Some characters in a row are those of the string they make. -/
theorem chars_slice (s : JsString) (i n : ℕ) : chars (((chars s).drop i).take n).flatten = ((chars s).drop i).take n := by
  obtain ⟨j, hj⟩ := exists_chars_drop s i
  rw [hj, chars_take]

/-- A character is a unit or a pair. -/
theorem cases_of_mem_chars {s c : JsString} (h : c ∈ chars s) :
    (∃ u ∈ s, c = [u]) ∨ ∃ u v, c = [u, v] ∧ isHigh u = true ∧ isLow v = true := by
  fun_induction chars s with
  | case1 u v s hpair ih =>
    rcases List.mem_cons.1 h with rfl | h
    · exact Or.inr ⟨u, v, rfl, Bool.and_eq_true_iff.1 hpair⟩
    · refine (ih h).imp_left ?_
      rintro ⟨w, hw, rfl⟩
      exact ⟨w, List.mem_cons_of_mem u (List.mem_cons_of_mem v hw), rfl⟩
  | case2 u v s hpair ih =>
    rcases List.mem_cons.1 h with rfl | h
    · exact Or.inl ⟨u, List.mem_cons_self, rfl⟩
    · refine (ih h).imp_left ?_
      rintro ⟨w, hw, rfl⟩
      exact ⟨w, List.mem_cons_of_mem u hw, rfl⟩
  | case3 u => exact Or.inl ⟨u, List.mem_cons_self, List.mem_singleton.1 h⟩
  | case4 => cases h

/-- The code point of a character; a half of a pair has the replacement character's. -/
def pointOf (c : JsString) : ℕ :=
  match c with
  | [u, v] => 0x10000 + (u.toNat - 0xd800) * 0x400 + (v.toNat - 0xdc00)
  | [u] => if isHigh u || isLow u then 0xfffd else u.toNat
  | _ => 0xfffd

/-- Is the character half of a pair? -/
def isLone (c : JsString) : Bool :=
  match c with
  | [u] => isHigh u || isLow u
  | _ => false

private theorem isScalar_pointOf {s c : JsString} (h : c ∈ chars s) : isScalar (pointOf c) = true := by
  rcases cases_of_mem_chars h with ⟨u, -, rfl⟩ | ⟨u, v, rfl, hu, hv⟩
  · unfold pointOf
    dsimp only
    split
    · rfl
    · rename_i hno
      rw [Bool.or_eq_true, not_or, isHigh_iff, isLow_iff] at hno
      have hlt : u.toNat < 0x10000 := by simpa using u.toNat_lt
      simp only [isScalar, Bool.or_eq_true, Bool.and_eq_true, decide_eq_true_eq]
      omega
  · exact isScalar_pair (isHigh_iff.1 hu) (isLow_iff.1 hv)

/-- A character that is whole has the code units of its code point. -/
private theorem codeUnits_pointOf {s c : JsString} (h : c ∈ chars s) (hlone : isLone c = false) :
    codeUnits (pointOf c) = c := by
  rcases cases_of_mem_chars h with ⟨u, -, rfl⟩ | ⟨u, v, rfl, hu, hv⟩
  · have hlt : u.toNat < 0x10000 := by simpa using u.toNat_lt
    have hpoint : pointOf [u] = u.toNat := if_neg (by rw [show (isHigh u || isLow u) = false from hlone]; decide)
    rw [hpoint, codeUnits_small hlt, UInt16.ofNat_toNat]
  · exact codeUnits_pair (isHigh_iff.1 hu) (isLow_iff.1 hv)

/-! ### Writing -/

/-- The bytes of a character. -/
def charBytes (c : JsString) : List UInt8 := (utf8 (pointOf c)).map .ofNat

/-- `Buffer.from(s, "utf8")` -/
def encodeUtf8 (s : JsString) : List UInt8 := (chars s).flatMap charBytes

/-! ### Reading -/

/-- A reader of UTF-8 between two bytes: how many the character it is in still needs, what it read of it, and the bounds
of its next byte. -/
structure Utf8Reader where
  needed : ℕ
  point : ℕ
  lower : ℕ
  upper : ℕ
  deriving DecidableEq

namespace Utf8Reader

/-- Between two characters. -/
def between : Utf8Reader := ⟨0, 0, 0x80, 0xbf⟩

/-- The first byte of a character, and the code points it completes. -/
def lead (b : ℕ) : Utf8Reader × List ℕ :=
  if b < 0x80 then (between, [b])
  else if 0xc2 ≤ b ∧ b ≤ 0xdf then (⟨1, b - 0xc0, 0x80, 0xbf⟩, [])
  else if 0xe0 ≤ b ∧ b ≤ 0xef then
    (⟨2, b - 0xe0, if b = 0xe0 then 0xa0 else 0x80, if b = 0xed then 0x9f else 0xbf⟩, [])
  else if 0xf0 ≤ b ∧ b ≤ 0xf4 then
    (⟨3, b - 0xf0, if b = 0xf0 then 0x90 else 0x80, if b = 0xf4 then 0x8f else 0xbf⟩, [])
  else (between, [0xfffd])

/-- The next byte, and the code points it completes; one that does not fit begins anew. -/
def feed (r : Utf8Reader) (b : ℕ) : Utf8Reader × List ℕ :=
  if r.needed = 0 then lead b
  else if r.lower ≤ b ∧ b ≤ r.upper then
    let c := r.point * 0x40 + (b - 0x80)
    if r.needed = 1 then (between, [c]) else (⟨r.needed - 1, c, 0x80, 0xbf⟩, [])
  else ((lead b).1, 0xfffd :: (lead b).2)

/-- The reader after some bytes. -/
def after (r : Utf8Reader) (bs : List UInt8) : Utf8Reader := bs.foldl (fun r b => (r.feed b.toNat).1) r

/-- The code points of the rest of a text; a character that breaks off at its end is replaced. -/
def points (r : Utf8Reader) : List UInt8 → List ℕ
  | [] => if r.needed = 0 then [] else [0xfffd]
  | b :: bs => (r.feed b.toNat).2 ++ points (r.feed b.toNat).1 bs

end Utf8Reader

/-- `buf.toString("utf8")` -/
def decodeUtf8 (bs : List UInt8) : JsString := (Utf8Reader.between.points bs).flatMap codeUnits

/-- The bytes end between two characters. -/
def EndsWhole (bs : List UInt8) : Prop := Utf8Reader.between.after bs = .between

instance (bs : List UInt8) : Decidable (EndsWhole bs) := inferInstanceAs (Decidable (_ = _))

/-! ### Pieces -/

namespace Utf8Reader

private theorem points_append (r : Utf8Reader) {as : List UInt8} (h : r.after as = between) (bs : List UInt8) :
    r.points (as ++ bs) = r.points as ++ between.points bs := by
  induction as generalizing r with
  | nil =>
    have hr : r = between := h
    rw [hr]
    rfl
  | cons a as ih =>
    rw [List.cons_append, points, points, ih (r.feed a.toNat).1 h, List.append_assoc]

end Utf8Reader

private theorem endsWhole_nil : EndsWhole [] := rfl

theorem EndsWhole.append {as bs : List UInt8} (ha : EndsWhole as) (hb : EndsWhole bs) : EndsWhole (as ++ bs) := by
  rw [EndsWhole, Utf8Reader.after, List.foldl_append]
  show Utf8Reader.after (Utf8Reader.between.after as) bs = .between
  rw [show Utf8Reader.between.after as = .between from ha]
  exact hb

/-- A text is read in two pieces as it is whole, when the first ends between two characters. -/
theorem decodeUtf8_append {as : List UInt8} (h : EndsWhole as) (bs : List UInt8) :
    decodeUtf8 (as ++ bs) = decodeUtf8 as ++ decodeUtf8 bs := by
  rw [decodeUtf8, Utf8Reader.points_append _ h, List.flatMap_append]
  rfl

/-! ### Reading what was written -/

namespace Utf8Reader

theorem feed_between (b : ℕ) : between.feed b = lead b := rfl

private theorem feed_two {x : ℕ} (hlo : 2 ≤ x) (hhi : x < 0x20) :
    between.feed (0xc0 + x) = (⟨1, x, 0x80, 0xbf⟩, []) := by
  rw [feed_between, lead, if_neg (by omega), if_pos (by omega), Nat.add_sub_cancel_left]

private theorem feed_three {x : ℕ} (h : x < 0x10) :
    between.feed (0xe0 + x) = (⟨2, x, if x = 0 then 0xa0 else 0x80, if x = 0xd then 0x9f else 0xbf⟩, []) := by
  have hzero : (0xe0 + x = 0xe0) = (x = 0) := by simp
  have hlast : (0xe0 + x = 0xed) = (x = 0xd) := by rw [eq_iff_iff]; omega
  rw [feed_between, lead, if_neg (by omega), if_neg (by omega), if_pos (by omega), Nat.add_sub_cancel_left]
  simp only [hzero, hlast]

private theorem feed_four {x : ℕ} (h : x < 5) :
    between.feed (0xf0 + x) = (⟨3, x, if x = 0 then 0x90 else 0x80, if x = 4 then 0x8f else 0xbf⟩, []) := by
  have hzero : (0xf0 + x = 0xf0) = (x = 0) := by simp
  have hlast : (0xf0 + x = 0xf4) = (x = 4) := by rw [eq_iff_iff]; omega
  rw [feed_between, lead, if_neg (by omega), if_neg (by omega), if_neg (by omega), if_pos (by omega),
    Nat.add_sub_cancel_left]
  simp only [hzero, hlast]

/-- A byte that the character goes on with. -/
private theorem feed_more {n x lo hi y : ℕ} (hlo : lo ≤ 0x80 + y) (hhi : 0x80 + y ≤ hi) :
    feed ⟨n + 2, x, lo, hi⟩ (0x80 + y) = (⟨n + 1, x * 0x40 + y, 0x80, 0xbf⟩, []) := by
  have hsum : 0x80 + y - 0x80 = y := Nat.add_sub_cancel_left ..
  rw [feed, if_neg (Nat.succ_ne_zero _), if_pos ⟨hlo, hhi⟩]
  dsimp only
  rw [if_neg (by omega), hsum]
  rfl

/-- The last byte of a character. -/
private theorem feed_last {x lo hi y : ℕ} (hlo : lo ≤ 0x80 + y) (hhi : 0x80 + y ≤ hi) :
    feed ⟨1, x, lo, hi⟩ (0x80 + y) = (between, [x * 0x40 + y]) := by
  have hsum : 0x80 + y - 0x80 = y := Nat.add_sub_cancel_left ..
  rw [feed, if_neg Nat.one_ne_zero, if_pos ⟨hlo, hhi⟩]
  dsimp only
  rw [if_pos rfl, hsum]

/-- From `r` the bytes are read as the code points `cs`, and lead to `r'`. -/
def Reads (r : Utf8Reader) (bs cs : List ℕ) (r' : Utf8Reader) : Prop :=
  r.after (bs.map .ofNat) = r' ∧ ∀ more, r.points (bs.map .ofNat ++ more) = cs ++ r'.points more

theorem Reads.nil (r : Utf8Reader) : Reads r [] [] r := ⟨rfl, fun _ => rfl⟩

theorem Reads.cons {r r₁ r' : Utf8Reader} {b : ℕ} {bs out cs : List ℕ} (hb : b < 256) (h : r.feed b = (r₁, out))
    (hrest : Reads r₁ bs cs r') : Reads r (b :: bs) (out ++ cs) r' := by
  have hbyte : (UInt8.ofNat b).toNat = b := UInt8.toNat_ofNat_of_lt' hb
  obtain ⟨hafter, hpoints⟩ := hrest
  refine ⟨?_, fun more => ?_⟩
  · rw [List.map_cons, after, List.foldl_cons, hbyte, h]
    exact hafter
  · rw [List.map_cons, List.cons_append, points, hbyte, h, hpoints, List.append_assoc]

/-- The bytes of a code point are read as it. -/
private theorem reads_utf8 {c : ℕ} (hc : isScalar c = true) : Reads between (utf8 c) [c] between := by
  have hlt := isScalar_lt hc
  simp only [isScalar, Bool.or_eq_true, Bool.and_eq_true, decide_eq_true_eq] at hc
  have hlast : ∀ {x : ℕ}, x = c / 0x40 → Reads ⟨1, x, 0x80, 0xbf⟩ [0x80 + c % 0x40] [c] between := by
    rintro x rfl
    have h := Reads.cons (by omega) (@feed_last (c / 0x40) 0x80 0xbf (c % 0x40) (by omega) (by omega)) (.nil between)
    rwa [show c / 0x40 * 0x40 + c % 0x40 = c by omega] at h
  unfold utf8
  split
  · rename_i h1
    have hlead : between.feed c = (between, [c]) := by rw [feed_between, lead, if_pos h1]
    exact .cons (by omega) hlead (.nil between)
  · rename_i h1
    split
    · rename_i h2
      exact .cons (by omega) (@feed_two (c / 0x40) (by omega) (by omega)) (hlast rfl)
    · rename_i h2
      split
      · rename_i h3
        have hmore := @feed_more 0 (c / 0x1000) (if c / 0x1000 = 0 then 0xa0 else 0x80)
          (if c / 0x1000 = 0xd then 0x9f else 0xbf) (c / 0x40 % 0x40) (by split <;> omega) (by split <;> omega)
        exact .cons (by omega) (@feed_three (c / 0x1000) (by omega)) (.cons (by omega) hmore (hlast (by omega)))
      · rename_i h3
        have hmore := @feed_more 1 (c / 0x40000) (if c / 0x40000 = 0 then 0x90 else 0x80)
          (if c / 0x40000 = 4 then 0x8f else 0xbf) (c / 0x1000 % 0x40) (by split <;> omega) (by split <;> omega)
        have hmore' := @feed_more 0 (c / 0x40000 * 0x40 + c / 0x1000 % 0x40) 0x80 0xbf (c / 0x40 % 0x40) (by omega)
          (by omega)
        exact .cons (by omega) (@feed_four (c / 0x40000) (by omega))
          (.cons (by omega) hmore (.cons (by omega) hmore' (hlast (by omega))))

end Utf8Reader

/-- The characters of a text as they are read back: a half of a pair is the replacement character. -/
def wellFormed (s : JsString) : JsString := (chars s).flatMap fun c => codeUnits (pointOf c)

private theorem endsWhole_charBytes {s c : JsString} (h : c ∈ chars s) : EndsWhole (charBytes c) :=
  (Utf8Reader.reads_utf8 (isScalar_pointOf h)).1

private theorem decodeUtf8_charBytes {s c : JsString} (h : c ∈ chars s) :
    decodeUtf8 (charBytes c) = codeUnits (pointOf c) := by
  have hpoints := (Utf8Reader.reads_utf8 (isScalar_pointOf h)).2 []
  rw [List.append_nil] at hpoints
  rw [decodeUtf8, charBytes, hpoints]
  exact List.flatMap_singleton codeUnits (pointOf c)

/-- Some characters are written, and read back. -/
private theorem decodeUtf8_flatMap {s : JsString} {cs : List JsString} (h : ∀ c ∈ cs, c ∈ chars s) :
    EndsWhole (cs.flatMap charBytes) ∧ decodeUtf8 (cs.flatMap charBytes) = cs.flatMap fun c => codeUnits (pointOf c) := by
  induction cs with
  | nil => exact ⟨endsWhole_nil, rfl⟩
  | cons c cs ih =>
    obtain ⟨hends, hdecode⟩ := ih fun d hd => h d (List.mem_cons_of_mem c hd)
    have hc := h c List.mem_cons_self
    rw [List.flatMap_cons, List.flatMap_cons, decodeUtf8_append (endsWhole_charBytes hc), decodeUtf8_charBytes hc, hdecode]
    exact ⟨(endsWhole_charBytes hc).append hends, rfl⟩

/-- A text is read back as it was written, but for broken pairs. -/
theorem decodeUtf8_encodeUtf8 (s : JsString) :
    EndsWhole (encodeUtf8 s) ∧ decodeUtf8 (encodeUtf8 s) = wellFormed s := decodeUtf8_flatMap fun _ hc => hc

private theorem flatMap_pointOf {s : JsString} {cs : List JsString} (h : ∀ c ∈ cs, c ∈ chars s)
    (hlone : ∀ c ∈ cs, isLone c = false) : (cs.flatMap fun c => codeUnits (pointOf c)) = cs.flatten := by
  induction cs with
  | nil => rfl
  | cons c cs ih =>
    rw [List.flatMap_cons, List.flatten_cons, codeUnits_pointOf (h c List.mem_cons_self) (hlone c List.mem_cons_self),
      ih (fun d hd => h d (List.mem_cons_of_mem c hd)) fun d hd => hlone d (List.mem_cons_of_mem c hd)]

/-- A text without broken pairs is what it was. -/
theorem wellFormed_eq_self {s : JsString} (h : ∀ c ∈ chars s, isLone c = false) : wellFormed s = s :=
  (flatMap_pointOf (fun _ hc => hc) h).trans (flatten_chars s)

/-- A text has no broken pairs, when it is read back as it was. -/
theorem isLone_of_wellFormed {s : JsString} (h : wellFormed s = s) {c : JsString} (hc : c ∈ chars s) : isLone c = false := by
  have hall : ∀ cs : List JsString, (∀ c ∈ cs, c ∈ chars s) → (cs.flatMap fun c => codeUnits (pointOf c)) = cs.flatten →
      ∀ c ∈ cs, isLone c = false := by
    intro cs
    induction cs with
    | nil => exact fun _ _ c hc => absurd hc List.not_mem_nil
    | cons d cs ih =>
      intro hmem heq c hc
      have hd := hmem d List.mem_cons_self
      rw [List.flatMap_cons, List.flatten_cons] at heq
      have hlen : (codeUnits (pointOf d)).length = d.length := by
        cases hlone : isLone d with
        | false => rw [codeUnits_pointOf hd hlone]
        | true =>
          rcases cases_of_mem_chars hd with ⟨u, -, rfl⟩ | ⟨u, v, rfl, -, -⟩
          · have hpoint : pointOf [u] = 0xfffd := if_pos hlone
            rw [hpoint, codeUnits_small (by omega), List.length_singleton, List.length_singleton]
          · cases hlone
      obtain ⟨hfirst, hrest⟩ := List.append_inj heq hlen
      rcases List.mem_cons.1 hc with rfl | hc
      · by_contra hlone
        rw [Bool.not_eq_false] at hlone
        rcases cases_of_mem_chars hd with ⟨u, -, rfl⟩ | ⟨u, v, rfl, -, -⟩
        · have hpoint : pointOf [u] = 0xfffd := if_pos hlone
          rw [hpoint, codeUnits_small (by omega)] at hfirst
          obtain ⟨rfl, -⟩ := List.cons.inj hfirst
          exact absurd hlone (by decide)
        · cases hlone
      · exact ih (fun x hx => hmem x (List.mem_cons_of_mem d hx)) hrest c hc
  exact hall (chars s) (fun _ hx => hx) (h.trans (flatten_chars s).symm) c hc

/-! ### Lengths -/

private theorem length_codeUnits_le (c : ℕ) : (codeUnits c).length ≤ 2 := by
  unfold codeUnits
  split <;> simp

namespace Utf8Reader

/-- What a reader has read without a unit for it: at least a byte, when it is in a character. -/
private def held (r : Utf8Reader) : ℕ := if r.needed = 0 then 0 else 1

private theorem length_lead (b : ℕ) : ((lead b).2.flatMap codeUnits).length + held (lead b).1 ≤ 1 := by
  unfold lead
  split
  · rename_i hb
    rw [List.flatMap_singleton, codeUnits_small (by omega)]
    exact le_rfl
  · split
    · exact le_rfl
    · split
      · exact le_rfl
      · split
        · exact le_rfl
        · exact le_rfl

private theorem length_feed (r : Utf8Reader) (b : ℕ) :
    ((r.feed b).2.flatMap codeUnits).length + held (r.feed b).1 ≤ held r + 1 := by
  have hlead := length_lead b
  unfold feed
  split
  · omega
  · rename_i hneeded
    have hheld : held r = 1 := if_neg hneeded
    split
    · dsimp only
      split
      · have hle := length_codeUnits_le (r.point * 0x40 + (b - 0x80))
        have hzero : held between = 0 := rfl
        rw [List.flatMap_singleton, hheld, hzero]
        omega
      · rename_i hmore
        rw [hheld, held, if_neg (by dsimp only; omega)]
        exact one_le_two
    · have hone : (codeUnits 0xfffd).length = 1 := by rw [codeUnits_small (by omega), List.length_singleton]
      rw [List.flatMap_cons, List.length_append, hheld, hone]
      dsimp only
      omega

private theorem length_points_le (r : Utf8Reader) (bs : List UInt8) :
    ((r.points bs).flatMap codeUnits).length ≤ bs.length + held r := by
  induction bs generalizing r with
  | nil =>
    unfold points held
    split
    · exact le_rfl
    · rw [List.flatMap_singleton, codeUnits_small (by omega)]
      exact le_rfl
  | cons b bs ih =>
    have hfeed := length_feed r b.toNat
    have hrest := ih (r.feed b.toNat).1
    rw [points, List.flatMap_append, List.length_append, List.length_cons]
    omega

end Utf8Reader

/-- A text has no more code units than bytes. -/
theorem length_decodeUtf8_le (bs : List UInt8) : (decodeUtf8 bs).length ≤ bs.length :=
  Utf8Reader.length_points_le .between bs

/-! ### ASCII -/

/-- A text of ASCII bytes has a unit for each, and ends between two characters. -/
theorem decodeUtf8_ascii {bs : List UInt8} (h : ∀ b ∈ bs, b.toNat < 0x80) :
    EndsWhole bs ∧ decodeUtf8 bs = bs.map UInt8.toUInt16 := by
  induction bs with
  | nil => exact ⟨endsWhole_nil, rfl⟩
  | cons b bs ih =>
    obtain ⟨hends, hdecode⟩ := ih fun x hx => h x (List.mem_cons_of_mem b hx)
    have hb := h b List.mem_cons_self
    have hlead : Utf8Reader.between.feed b.toNat = (.between, [b.toNat]) := by
      rw [Utf8Reader.feed_between, Utf8Reader.lead, if_pos hb]
    have hone : EndsWhole [b] := congrArg Prod.fst hlead
    have hunit : decodeUtf8 [b] = [b.toUInt16] := by
      have hpoints : Utf8Reader.between.points [b] = [b.toNat] := by
        rw [Utf8Reader.points, hlead]
        rfl
      rw [decodeUtf8, hpoints, List.flatMap_singleton, codeUnits_small (by omega)]
      exact congrArg (fun u => [u]) (UInt16.toNat_inj.1 (by simp))
    have happ := decodeUtf8_append hone bs
    rw [List.singleton_append, hunit, hdecode] at happ
    exact ⟨hone.append hends, happ⟩

end Servitals
