import Servitals.Decimals
import Servitals.Utf8

/-!
# Texts cut to a length

`cut` and `fit` of `hub/lib/notify.js`: a text of at most `n` characters is left as it is; a longer one ends in a line
that counts the lines left out, or is cut when its first line leaves no room for that (`fit_spec`).

`fit` keeps a line when the line, a break, the line that counts it too and one character more fit.  So a text is cut
although its first line and the count of the others fit, when they fit with no character to spare or with one that the
longer count needs (`fit_as_said_iff`).
-/

namespace Servitals

/-- How many characters a string has. -/
def charCount (s : JsString) : ℕ := (chars s).length

/-- `cut`: at most `n` characters, the last of them an ellipsis when some are left out. -/
def cut (s : JsString) (n : ℕ) : JsString := if n < charCount s then ((chars s).take (n - 1)).flatten ++ js "…" else s

/-- `tr("notify.more", { n })` -/
def moreLine (n : ℕ) : JsString := js "+" ++ count n ++ js " more in the alert log"

/-- The lines that `fit` keeps of those after `out`, which with their breaks have `len` characters; the lines are
`total`. -/
def keepLines (n total : ℕ) (out : List JsString) (len : ℕ) : List JsString → List JsString
  | [] => out
  | l :: ls =>
    if n < len + charCount l + 1 + charCount (moreLine (total - out.length)) + 1 then out
    else keepLines n total (out ++ [l]) (len + charCount l + 1) ls

/-- `fit` -/
def fit (text : JsString) (n : ℕ) : JsString :=
  let lines := split 0x0a text
  if charCount text ≤ n then text
  else
    let out := keepLines n lines.length [] 0 lines
    if out = [] then cut text n else joinLines out ++ 0x0a :: moreLine (lines.length - out.length)

/-! ### What it should give -/

/-- Some whole lines of the text, and a line that counts the others. -/
def Counted (text r : JsString) : Prop :=
  ∃ kept rest, split 0x0a text = kept ++ rest ∧ kept ≠ [] ∧ rest ≠ [] ∧ r = joinLines kept ++ 0x0a :: moreLine rest.length

/-- The first line and the line that counts the others are at most `n` characters. -/
def LineFits (text : JsString) (n : ℕ) : Prop :=
  charCount ((split 0x0a text).headD []) + 1 + charCount (moreLine ((split 0x0a text).length - 1)) ≤ n

instance (text : JsString) (n : ℕ) : Decidable (LineFits text n) := inferInstanceAs (Decidable (_ ≤ _))

/-- Whole characters of the text, and after them nothing, the ellipsis, or a break and a line that counts. -/
def CutWhole (text r : JsString) : Prop :=
  ∃ k tail, chars r = (chars text).take k ++ chars tail ∧ (tail = [] ∨ tail = js "…" ∨ ∃ m, tail = 0x0a :: moreLine m)

/-- What `fit` says of itself. -/
structure FitsWell (text : JsString) (n : ℕ) (r : JsString) : Prop where
  bound : charCount r ≤ n
  whole : charCount text ≤ n → r = text
  lines : n < charCount text → Counted text r ∨ ¬ LineFits text n ∧ r = cut text n
  unsplit : CutWhole text r

/-! ### Characters -/

private theorem charCount_append {a b : JsString} (h : ∀ u ∈ b.head?, isLow u = false) :
    charCount (a ++ b) = charCount a + charCount b := by
  rw [charCount, chars_append h, List.length_append]
  rfl

/-- Text after a line break. -/
private theorem chars_break (a b : JsString) : chars (a ++ 0x0a :: b) = chars a ++ [0x0a] :: chars b := by
  have hbreak : chars (0x0a :: b) = [0x0a] :: chars b := by
    cases b with
    | nil => rfl
    | cons v b => rw [chars, if_neg (by rw [show isHigh 0x0a = false from rfl, Bool.false_and]; exact Bool.false_ne_true)]
  rw [chars_append (fun u hu => by cases hu; rfl), hbreak]

private theorem charCount_break (a b : JsString) : charCount (a ++ 0x0a :: b) = charCount a + 1 + charCount b := by
  rw [charCount, chars_break, List.length_append, List.length_cons, ← charCount, ← charCount]
  omega

/-- A string without halves of pairs has a character for each unit. -/
private theorem charCount_of_small {s : JsString} (h : ∀ u ∈ s, u.toNat < 0xd800) : charCount s = s.length := by
  induction s with
  | nil => rfl
  | cons u s ih =>
    have hlow : ∀ v ∈ s.head?, isLow v = false := by
      intro v hv
      rw [← Bool.not_eq_true, isLow_iff]
      have := h v (List.mem_cons_of_mem u (List.mem_of_mem_head? hv))
      omega
    have happ := @charCount_append [u] s hlow
    rw [List.singleton_append, ih fun v hv => h v (List.mem_cons_of_mem u hv)] at happ
    rw [happ, List.length_cons]
    exact Nat.add_comm 1 _

/-! ### Lines -/

/-- The characters of some lines and of the break after each. -/
def width (ls : List JsString) : ℕ := (ls.map fun l => charCount l + 1).sum

private theorem width_cons (l : JsString) (ls : List JsString) : width (l :: ls) = charCount l + 1 + width ls := by
  rw [width, List.map_cons, List.sum_cons]
  rfl

private theorem width_eq {ls : List JsString} (h : ls ≠ []) : width ls = charCount (joinLines ls) + 1 := by
  induction ls with
  | nil => exact absurd rfl h
  | cons l ls ih =>
    rw [width_cons]
    by_cases hls : ls = []
    · rw [hls, joinLines, intercalate_singleton]
      rfl
    · rw [joinLines, intercalate_cons _ l hls, charCount_break, ← joinLines, ih hls]
      omega

/-! ### The counting line -/

private theorem charCount_moreLine (n : ℕ) : charCount (moreLine n) = (Nat.toDigits 10 n).length + 23 := by
  have hsmall : ∀ u ∈ moreLine n, u.toNat < 0xd800 := by
    intro u hu
    rw [moreLine, List.mem_append, List.mem_append, count_eq] at hu
    have hwords : ∀ w ∈ js "+" ++ js " more in the alert log", w.toNat < 0xd800 := by
      have hall : (js "+" ++ js " more in the alert log").all (fun w => decide (w.toNat < 0xd800)) = true := by decide +kernel
      exact fun w hw => of_decide_eq_true (List.all_eq_true.1 hall w hw)
    rcases hu with (hu | hu) | hu
    · exact hwords u (List.mem_append_left _ hu)
    · obtain ⟨c, hc, rfl⟩ := List.mem_map.1 hu
      have hdigit := Nat.isDigit_of_mem_toDigits (b := 10) (by decide) (by decide) hc
      simp only [Char.isDigit, Bool.and_eq_true, decide_eq_true_eq] at hdigit
      have h := UInt32.le_iff_toNat_le.1 hdigit.2
      have hle : c.toNat ≤ 57 := h
      rw [UInt16.toNat_ofNat_of_lt' (lt_of_le_of_lt hle (by decide))]
      omega
    · exact hwords u (List.mem_append_right _ hu)
  rw [charCount_of_small hsmall, moreLine, List.length_append, List.length_append, count_eq, List.length_map,
    show (js "+").length = 1 from by decide +kernel, show (js " more in the alert log").length = 22 from by decide +kernel]
  omega

/-- Counting fewer lines takes no more characters. -/
private theorem charCount_moreLine_mono {m n : ℕ} (h : m ≤ n) : charCount (moreLine m) ≤ charCount (moreLine n) := by
  have hpos : 0 < (Nat.toDigits 10 n).length := Nat.length_toDigits_pos
  have hn := (Nat.length_toDigits_le_iff (by decide) hpos).1 (le_refl (Nat.toDigits 10 n).length)
  have hm := (Nat.length_toDigits_le_iff (n := m) (b := 10) (by decide) hpos).2 (lt_of_le_of_lt h hn)
  rw [charCount_moreLine, charCount_moreLine]
  omega

/-! ### The loop -/

/-- `fit` keeps some of the lines; after the last one kept it still had room for the count of one line more, a break and a
character. -/
private theorem keepLines_spec (n total : ℕ) (out : List JsString) (len : ℕ) (ls : List JsString) :
    ∃ j ≤ ls.length, keepLines n total out len ls = out ++ ls.take j ∧
      (j ≠ 0 → len + width (ls.take j) + charCount (moreLine (total - (out.length + j - 1))) + 1 ≤ n) := by
  induction ls generalizing out len with
  | nil => exact ⟨0, le_rfl, (List.append_nil out).symm, fun h => absurd rfl h⟩
  | cons l ls ih =>
    rw [keepLines]
    split
    · exact ⟨0, Nat.zero_le _, (List.append_nil out).symm, fun h => absurd rfl h⟩
    · rename_i hroom
      obtain ⟨j, hj, hkeep, hfits⟩ := ih (out ++ [l]) (len + charCount l + 1)
      refine ⟨j + 1, Nat.succ_le_succ hj, ?_, fun _ => ?_⟩
      · rw [hkeep, List.take_succ_cons, List.append_assoc, List.singleton_append]
      · rw [List.take_succ_cons, width_cons]
        by_cases hj0 : j = 0
        · rw [hj0, List.take_zero, show width [] = 0 from rfl, show out.length + (0 + 1) - 1 = out.length from by omega]
          omega
        · have h := hfits hj0
          rw [List.length_append, List.length_singleton, show out.length + 1 + j - 1 = out.length + (j + 1) - 1 from by omega] at h
          omega

/-- No line is kept exactly when the first one leaves no room. -/
private theorem keepLines_eq_nil {n total : ℕ} {l : JsString} {ls : List JsString} :
    keepLines n total [] 0 (l :: ls) = [] ↔ n < charCount l + 1 + charCount (moreLine total) + 1 := by
  rw [keepLines, Nat.zero_add, List.length_nil, Nat.sub_zero]
  constructor
  · intro h
    split at h
    · assumption
    · obtain ⟨j, -, hkeep, -⟩ := keepLines_spec n total ([] ++ [l]) (charCount l + 1) ls
      rw [hkeep] at h
      cases h
  · intro h
    rw [if_pos h]

/-! ### What `fit` gives -/

theorem charCount_cut {text : JsString} {n : ℕ} (hn : 1 ≤ n) (h : n < charCount text) :
    charCount (cut text n) = n ∧ ∃ k, chars (cut text n) = (chars text).take k ++ chars (js "…") := by
  have hchars : chars (cut text n) = (chars text).take (n - 1) ++ chars (js "…") := by
    rw [cut, if_pos h, chars_append (fun u hu => by cases hu; rfl), chars_take]
  refine ⟨?_, n - 1, hchars⟩
  rw [charCount, hchars, List.length_append, List.length_take, show (chars (js "…")).length = 1 from by decide +kernel]
  have : n ≤ (chars text).length := h.le
  omega

/-- A cut text does not end like one that counts its lines. -/
private theorem cut_ne_counted {text : JsString} {n : ℕ} (h : n < charCount text) : ¬ Counted text (cut text n) := by
  rintro ⟨kept, rest, -, -, -, heq⟩
  have hlast : (cut text n).getLast? = some 0x2026 := by
    rw [cut, if_pos h]
    exact List.getLast?_concat
  have hmore : (joinLines kept ++ 0x0a :: moreLine rest.length).getLast? = some 0x67 := by
    have hend : ∃ w : JsString, joinLines kept ++ 0x0a :: moreLine rest.length = w ++ [0x67] := by
      refine ⟨joinLines kept ++ 0x0a :: (js "+" ++ count rest.length ++ js " more in the alert lo"), ?_⟩
      rw [List.append_assoc, List.cons_append, List.append_assoc]
      rfl
    obtain ⟨w, hw⟩ := hend
    rw [hw]
    exact List.getLast?_concat
  rw [heq, hmore] at hlast
  exact absurd (Option.some.inj hlast) (by decide)

/-- For every text and every `n`: the text itself when it fits; otherwise some whole lines and the count of the others,
or, when the first line leaves no room, a cut. -/
theorem fit_spec (text : JsString) {n : ℕ} (hn : 1 ≤ n) :
    charCount (fit text n) ≤ n ∧ (charCount text ≤ n → fit text n = text) ∧
      CutWhole text (fit text n) ∧
      (n < charCount text →
        if n < charCount ((split 0x0a text).headD []) + 1 + charCount (moreLine (split 0x0a text).length) + 1 then
          fit text n = cut text n
        else Counted text (fit text n)) := by
  by_cases hfits : charCount text ≤ n
  · have hfit : fit text n = text := if_pos hfits
    rw [hfit]
    refine ⟨hfits, fun _ => rfl, ⟨(chars text).length, [], ?_, Or.inl rfl⟩, fun h => absurd hfits (not_le.2 h)⟩
    rw [List.take_length]
    exact (List.append_nil _).symm
  · have hlong := not_le.1 hfits
    cases hlines : split 0x0a text with
    | nil => exact absurd hlines (split_ne_nil _ _)
    | cons l ls =>
      obtain ⟨j, hj, hkeep, hroom⟩ := keepLines_spec n (l :: ls).length [] 0 (l :: ls)
      have hfit : fit text n = if keepLines n (l :: ls).length [] 0 (l :: ls) = [] then cut text n
          else joinLines (keepLines n (l :: ls).length [] 0 (l :: ls)) ++
            0x0a :: moreLine ((l :: ls).length - (keepLines n (l :: ls).length [] 0 (l :: ls)).length) := by
        unfold fit
        dsimp only
        rw [if_neg hfits, hlines]
      rw [List.headD_cons]
      by_cases hnone : keepLines n (l :: ls).length [] 0 (l :: ls) = []
      · rw [if_pos hnone] at hfit
        rw [hfit, if_pos (keepLines_eq_nil.1 hnone)]
        obtain ⟨hlen, k, hk⟩ := charCount_cut hn hlong
        exact ⟨hlen.le, fun h => absurd h hfits, ⟨k, _, hk, Or.inr (Or.inl rfl)⟩, fun _ => rfl⟩
      · rw [if_neg hnone] at hfit
        rw [hfit, if_neg (keepLines_eq_nil.not.1 hnone)]
        rw [hkeep, List.nil_append] at hnone ⊢
        have hj0 : j ≠ 0 := by
          rintro rfl
          exact hnone rfl
        have hwidth := hroom hj0
        rw [Nat.zero_add, width_eq hnone, List.length_nil, Nat.zero_add] at hwidth
        -- some line is left out, since the text is too long
        have hrest : (l :: ls).drop j ≠ [] := by
          intro hnil
          have hall := List.take_append_drop j (l :: ls)
          rw [hnil, List.append_nil] at hall
          rw [hall, ← hlines, joinLines, intercalate_split] at hwidth
          omega
        have hcount : (l :: ls).length - ((l :: ls).take j).length = ((l :: ls).drop j).length := by
          rw [List.length_take, List.length_drop]
          omega
        have htext : text = joinLines ((l :: ls).take j) ++ 0x0a :: joinLines ((l :: ls).drop j) := by
          rw [joinLines, joinLines, ← intercalate_append _ hnone hrest, List.take_append_drop, ← hlines, intercalate_split]
        rw [hcount]
        refine ⟨?_, fun h => absurd h hfits, ⟨charCount (joinLines ((l :: ls).take j)),
          0x0a :: moreLine ((l :: ls).drop j).length, ?_, Or.inr (Or.inr ⟨_, rfl⟩)⟩, fun _ =>
          ⟨(l :: ls).take j, (l :: ls).drop j, ?_, hnone, hrest, rfl⟩⟩
        · have hmono := @charCount_moreLine_mono ((l :: ls).drop j).length ((l :: ls).length - (j - 1)) (by
            rw [List.length_drop]
            omega)
          rw [charCount_break]
          omega
        · have hchars := chars_break (joinLines ((l :: ls).take j)) (joinLines ((l :: ls).drop j))
          rw [← htext] at hchars
          rw [hchars, charCount, List.take_left, chars_append (fun u hu => by cases hu; rfl)]
        · rw [hlines, List.take_append_drop]

/-- **A text that fits.**  For every text of any lines and every `n` from 1 on, what `fit` gives is as it says exactly
when the text fits, its first line and the count of the others do not, or they do with a character to spare, and one more
when the count of all lines is longer. -/
theorem fit_as_said_iff (text : JsString) (n : ℕ) (hn : 1 ≤ n) :
    FitsWell text n (fit text n) ↔ charCount text ≤ n ∨ ¬ LineFits text n ∨
      charCount ((split 0x0a text).headD []) + 1 + charCount (moreLine (split 0x0a text).length) + 1 ≤ n := by
  obtain ⟨hbound, hwhole, hunsplit, hlines⟩ := fit_spec text hn
  constructor
  · intro h
    by_contra hnot
    rw [not_or, not_or, not_not] at hnot
    obtain ⟨hlong, hline, hroom⟩ := hnot
    have hcut := hlines (not_le.1 hlong)
    rw [if_pos (not_le.1 hroom)] at hcut
    rcases h.lines (not_le.1 hlong) with hcounted | ⟨hno, -⟩
    · rw [hcut] at hcounted
      exact cut_ne_counted (not_le.1 hlong) hcounted
    · exact hno hline
  · intro h
    refine ⟨hbound, hwhole, fun hlong => ?_, hunsplit⟩
    have hgives := hlines hlong
    split at hgives
    · rename_i hroom
      refine Or.inr ⟨?_, hgives⟩
      rcases h with h | h | h
      · exact absurd h (not_le.2 hlong)
      · exact h
      · exact absurd h (not_le.2 hroom)
    · exact Or.inl hgives

/-- A text of two lines; the first and the count of the other are 27 characters. -/
private def tight : JsString := js "ab\nabcdefghijklmnopqrstuvwxyz"

theorem fit_tight_not_as_said : LineFits tight 27 ∧ fit tight 27 = js "ab\nabcdefghijklmnopqrstuvw…" ∧
    ¬ FitsWell tight 27 (fit tight 27) := by
  have hlong : 27 < charCount tight := by decide +kernel
  have hline : LineFits tight 27 := by decide +kernel
  have hcut : fit tight 27 = cut tight 27 := by decide +kernel
  refine ⟨hline, by decide +kernel, fun h => ?_⟩
  rw [hcut] at h
  rcases h.lines hlong with hcounted | ⟨hno, -⟩
  · exact cut_ne_counted hlong hcounted
  · exact hno hline

theorem fit_as_said_roomy : FitsWell tight 28 (fit tight 28) := (fit_as_said_iff tight 28 (by decide)).2 (by decide +kernel)

end Servitals
