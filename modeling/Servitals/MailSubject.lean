import Servitals.JsNumber
import Servitals.Lib.Base64
import Servitals.Utf8

/-!
# The subject of a mail

`header` of `hub/lib/smtp.js`: a subject of printable ASCII is written as it is, any other one as encoded words of twelve
characters.  A reader of RFC 2047 gets the subject back exactly when a subject written as it is has no encoded word in
it, and no twelve characters of another one are more than 45 bytes or have a broken pair in them
(`subject_read_back_iff`): 46 bytes take 64 digits, and the word around them has twelve characters more, one above 75.

The reader is here in full: unfolding, the words of a line and both encodings.  Which character sets it has besides UTF-8
is a parameter (`Charsets`).
-/

namespace Servitals

/-! ### Base64 of a mail -/

/-- The digit of a number below 64. -/
def mailDigit (n : ℕ) : UInt16 :=
  .ofNat (if n < 26 then 0x41 + n else if n < 52 then 0x47 + n else if n < 62 then n - 4 else if n = 62 then 0x2b else 0x2f)

/-- The number of a digit. -/
def mailValue (u : UInt16) : Option ℕ :=
  if unitIn 'A' 'Z' u then some (u.toNat - 0x41)
  else if unitIn 'a' 'z' u then some (u.toNat - 0x47)
  else if unitIn '0' '9' u then some (u.toNat + 4)
  else if u = 0x2b then some 62
  else if u = 0x2f then some 63
  else none

def mailBase64 : Base64 UInt16 where
  digit := mailDigit
  value := mailValue
  pad := 0x3d
  value_digit := by decide
  value_pad := by decide

/-- `b64` -/
def b64 (s : JsString) : JsString := mailBase64.encode (encodeUtf8 s)

/-! ### Writing -/

def isBreak (u : UInt16) : Bool := u == 0x0d || u == 0x0a

/-- `s.replace(/[\r\n]+/g, " ")` -/
def unbreak : JsString → JsString
  | u :: v :: s =>
    if isBreak u then if isBreak v then unbreak (v :: s) else 0x20 :: unbreak (v :: s) else u :: unbreak (v :: s)
  | [u] => [if isBreak u then 0x20 else u]
  | [] => []

/-- `/^[\x20-\x7e]*$/` -/
def isPrintable (s : JsString) : Bool := s.all (unitIn ' ' '~')

/-- `chars.slice(i, i + 12)` for `i` of 0, 12, 24, … -/
def slices (cs : List JsString) : List (List JsString) :=
  (List.range ((cs.length + 11) / 12)).map fun i => (cs.drop (12 * i)).take 12

/-- An encoded word of some characters. -/
def wordOf (cs : List JsString) : JsString := js "=?UTF-8?B?" ++ b64 cs.flatten ++ js "?="

/-- `parts.join("\r\n ")` -/
def foldWords : List JsString → JsString
  | [] => []
  | [w] => w
  | w :: ws => w ++ js "\r\n " ++ foldWords ws

/-- `header` -/
def header (subject : JsString) : JsString :=
  let s := unbreak subject
  if isPrintable s then s else foldWords ((slices (chars s)).map wordOf)

/-! ### Reading -/

/-- The character sets of a reader, by name in small letters: UTF-8, and any others.  None makes more code units than it
has bytes. -/
structure Charsets where
  read : JsString → Option (List UInt8 → JsString)
  utf8 : read (js "utf-8") = some decodeUtf8
  length_le : ∀ name f bs, read name = some f → (f bs).length ≤ bs.length

/-- The bytes of an encoded text of encoding Q. -/
def quotedBytes : JsString → Option (List UInt8)
  | [] => some []
  | u :: s =>
    if u = 0x5f then (quotedBytes s).map fun bs => 0x20 :: bs
    else if u = 0x3d then
      match s with
      | a :: b :: t =>
        match hexValue a, hexValue b with
        | some x, some y => (quotedBytes t).map fun bs => .ofNat (x * 16 + y) :: bs
        | _, _ => none
      | _ => none
    else if unitIn '!' '~' u then (quotedBytes s).map fun bs => u.toUInt8 :: bs
    else none

/-- The bytes of an encoded text. -/
def textBytes (encoding text : JsString) : Option (List UInt8) :=
  if lower encoding = js "b" then mailBase64.decode text
  else if lower encoding = js "q" then quotedBytes text
  else none

/-- What a reader finds in an encoded word: its character set, its bytes and the text they are. -/
structure EncodedWord where
  charset : JsString
  bytes : List UInt8
  shown : JsString
  deriving DecidableEq

/-- An encoded word, `=?charset?encoding?text?=`, of a character set that the reader has. -/
def encodedWord (sets : Charsets) (w : JsString) : Option EncodedWord :=
  match split 0x3f w with
  | [start, name, encoding, text, stop] =>
    if start = js "=" ∧ stop = js "=" ∧ text ≠ [] then
      match sets.read (lower name), textBytes encoding text with
      | some read, some bs => some ⟨lower name, bs, read bs⟩
      | _, _ => none
    else none
  | _ => none

/-- The text of an encoded word. -/
def readWord (sets : Charsets) (w : JsString) : Option JsString := (encodedWord sets w).map EncodedWord.shown

def isBlank (u : UInt16) : Bool := u == 0x20 || u == 0x09

/-- A line end before a blank is a fold. -/
def unfoldLines : JsString → JsString
  | u :: v :: w :: s =>
    if u = 0x0d ∧ v = 0x0a ∧ isBlank w then unfoldLines (w :: s) else u :: unfoldLines (v :: w :: s)
  | s => s

/-- The words of a line, and the blanks between them. -/
def pieces (s : JsString) : List JsString := s.splitBy fun u v => isBlank u == isBlank v

/-- The text of some words: blanks between two encoded words do not count. -/
def readPieces (sets : Charsets) : List JsString → JsString
  | w :: b :: v :: ps =>
    if (readWord sets w).isSome && (readWord sets v).isSome then (readWord sets w).getD w ++ readPieces sets (v :: ps)
    else (readWord sets w).getD w ++ readPieces sets (b :: v :: ps)
  | [w, b] => (readWord sets w).getD w ++ (readWord sets b).getD b
  | [w] => (readWord sets w).getD w
  | [] => []

/-- What a reader shows of a header's value. -/
def decodeHeader (sets : Charsets) (h : JsString) : JsString := readPieces sets (pieces (unfoldLines h))

/-- What a header should be for its subject. -/
structure WellEncoded (sets : Charsets) (subject h : JsString) : Prop where
  /-- Line ends stand in folds between encoded words only. -/
  folds : ∃ ws, h = foldWords ws ∧ (∀ w ∈ ws, ∀ u ∈ w, isBreak u = false) ∧
    (2 ≤ ws.length → ∀ w ∈ ws, (encodedWord sets w).isSome = true)
  short : ∀ w ∈ pieces (unfoldLines h), (encodedWord sets w).isSome = true → w.length ≤ 75
  whole : ∀ w ∈ pieces (unfoldLines h), ∀ e, encodedWord sets w = some e → e.charset = js "utf-8" → EndsWhole e.bytes
  decoded : decodeHeader sets h = unbreak subject

/-- A reader with UTF-8 and ISO-8859-1. -/
def latinReader : Charsets where
  read name :=
    if name = js "utf-8" then some decodeUtf8
    else if name = js "iso-8859-1" then some fun bs => bs.map UInt8.toUInt16
    else none
  utf8 := if_pos rfl
  length_le name f bs h := by
    split at h
    · cases h
      exact length_decodeUtf8_le bs
    · split at h
      · cases h
        exact (List.length_map _).le
      · cases h

example : decodeHeader latinReader (js "=?iso-8859-1?q?f=FCr_?=\r\n =?UTF-8?B?w7w=?= =?x?=") = js "für ü =?x?=" := by
  decide +kernel

/-! ### The lines of a header -/

variable {sets : Charsets}

private theorem unfoldLines_cons {u : UInt16} (h : u ≠ 0x0d) (s : JsString) :
    unfoldLines (u :: s) = u :: unfoldLines s := by
  match s with
  | [] => rfl
  | [v] => rfl
  | v :: w :: s => rw [unfoldLines, if_neg fun hfold => h hfold.1]

private theorem unfoldLines_append {a : JsString} (h : ∀ u ∈ a, isBreak u = false) (s : JsString) :
    unfoldLines (a ++ s) = a ++ unfoldLines s := by
  induction a with
  | nil => rfl
  | cons u a ih =>
    have hu : u ≠ 0x0d := by
      rintro rfl
      exact absurd (h _ List.mem_cons_self) (by decide)
    rw [List.cons_append, unfoldLines_cons hu, ih fun v hv => h v (List.mem_cons_of_mem u hv), List.cons_append]

private theorem unfoldLines_eq_self {a : JsString} (h : ∀ u ∈ a, isBreak u = false) : unfoldLines a = a := by
  have happ := unfoldLines_append h []
  rw [List.append_nil] at happ
  rw [happ]
  exact List.append_nil a

/-- The words of a folded header stand with a space between them. -/
private theorem unfoldLines_foldWords {ws : List JsString} (h : ∀ w ∈ ws, ∀ u ∈ w, isBreak u = false) :
    unfoldLines (foldWords ws) = (ws.intersperse [0x20]).flatten := by
  fun_induction foldWords ws with
  | case1 => rfl
  | case2 w => rw [unfoldLines_eq_self (h w List.mem_cons_self)]; simp
  | case3 w ws hws ih =>
    cases ws with
    | nil => exact absurd rfl hws
    | cons v ws =>
      have hfold : unfoldLines (js "\r\n " ++ foldWords (v :: ws)) = 0x20 :: unfoldLines (foldWords (v :: ws)) := by
        show unfoldLines (0x0d :: 0x0a :: 0x20 :: foldWords (v :: ws)) = _
        rw [unfoldLines, if_pos ⟨rfl, rfl, rfl⟩, unfoldLines_cons (by decide)]
      rw [List.append_assoc, unfoldLines_append (h w List.mem_cons_self), hfold,
        ih fun x hx => h x (List.mem_cons_of_mem w hx), List.intersperse_cons_cons]
      simp

private theorem pieces_word {w : JsString} (hne : w ≠ []) (h : ∀ u ∈ w, isBlank u = false) : pieces w = [w] := by
  refine List.splitBy_of_isChain hne ?_
  refine (List.pairwise_of_forall_mem_list ?_).isChain
  intro u hu v hv
  rw [h u hu, h v hv]
  rfl

/-- The words of such a line, and the spaces between them. -/
private theorem pieces_spaced {ws : List JsString} (hne : ∀ w ∈ ws, w ≠ []) (h : ∀ w ∈ ws, ∀ u ∈ w, isBlank u = false) :
    pieces (ws.intersperse [0x20]).flatten = ws.intersperse [0x20] := by
  induction ws with
  | nil => rfl
  | cons w ws ih =>
    have hw := pieces_word (hne w List.mem_cons_self) (h w List.mem_cons_self)
    cases ws with
    | nil => simpa using hw
    | cons v ws =>
      have hrest := ih (fun x hx => hne x (List.mem_cons_of_mem w hx)) fun x hx => h x (List.mem_cons_of_mem w hx)
      have hv : ∀ u ∈ (((v :: ws).intersperse [0x20]).flatten).head?, isBlank u = false := by
        have hvne := hne v (List.mem_cons_of_mem w List.mem_cons_self)
        intro u hu
        refine h v (List.mem_cons_of_mem w List.mem_cons_self) u ?_
        cases v with
        | nil => exact absurd rfl hvne
        | cons x v =>
          have hhead : (((x :: v) :: ws).intersperse [0x20]).flatten.head? = some x := by cases ws <;> rfl
          rw [hhead] at hu
          cases hu
          exact List.mem_cons_self
      rw [List.intersperse_cons_cons, List.flatten_cons, List.flatten_cons, pieces, List.splitBy_append, List.splitBy_append]
      · show pieces w ++ (pieces [0x20] ++ pieces ((v :: ws).intersperse [0x20]).flatten) = _
        rw [hw, hrest]
        rfl
      · intro x hx y hy
        cases hx
        rw [hv y hy]
        rfl
      · intro x hx y hy
        cases hy
        rw [h w List.mem_cons_self x (List.mem_of_getLast? hx)]
        rfl

private theorem readPieces_spaced {ws : List JsString} (f : JsString → JsString)
    (h : ∀ w ∈ ws, readWord sets w = some (f w)) :
    readPieces sets (ws.intersperse [0x20]) = ws.flatMap f := by
  induction ws with
  | nil => rfl
  | cons w ws ih =>
    have hw := h w List.mem_cons_self
    cases ws with
    | nil =>
      rw [List.intersperse_singleton, readPieces, hw, List.flatMap_singleton]
      rfl
    | cons v ws =>
      have hrest := ih fun x hx => h x (List.mem_cons_of_mem w hx)
      have hv := h v (List.mem_cons_of_mem w List.mem_cons_self)
      have hhead : ∃ ps, (v :: ws).intersperse [0x20] = v :: ps := by
        cases ws with
        | nil => exact ⟨[], rfl⟩
        | cons x ws => exact ⟨_, List.intersperse_cons_cons⟩
      obtain ⟨ps, hps⟩ := hhead
      rw [List.intersperse_cons_cons, hps, readPieces, hw, hv, ← hps, hrest]
      rfl

/-! ### What encoded words hide -/

private theorem length_split (sep : UInt16) (s : JsString) :
    ((split sep s).map List.length).sum + (split sep s).length = s.length + 1 := by
  induction s with
  | nil => rfl
  | cons u s ih =>
    rw [split]
    split
    · simp only [List.map_cons, List.sum_cons, List.length_nil, List.length_cons]
      omega
    · cases hs : split sep s with
      | nil => exact absurd hs (split_ne_nil sep s)
      | cons p ps =>
        rw [hs] at ih
        simp only [List.map_cons, List.sum_cons, List.length_cons] at ih ⊢
        omega

private theorem length_quotedBytes_le {s : JsString} {bs : List UInt8} (h : quotedBytes s = some bs) :
    bs.length ≤ s.length := by
  fun_induction quotedBytes s generalizing bs with
  | case1 =>
    cases h
    exact le_rfl
  | case2 s ih =>
    obtain ⟨rest, hrest, rfl⟩ := Option.map_eq_some_iff.1 h
    exact Nat.succ_le_succ (ih hrest)
  | case3 hu a b t x y hx hy ih =>
    obtain ⟨rest, hrest, rfl⟩ := Option.map_eq_some_iff.1 h
    have hle := ih hrest
    simp only [List.length_cons]
    omega
  | case4 => cases h
  | case5 => cases h
  | case6 u s h1 h2 h3 ih =>
    obtain ⟨rest, hrest, rfl⟩ := Option.map_eq_some_iff.1 h
    exact Nat.succ_le_succ (ih hrest)
  | case7 => cases h

/-- The text of an encoded word is shorter than the word. -/
private theorem length_readWord_lt {w t : JsString} (h : readWord sets w = some t) : t.length < w.length := by
  obtain ⟨e, he, rfl⟩ := Option.map_eq_some_iff.1 h
  unfold encodedWord at he
  split at he
  · rename_i start name encoding text stop hsplit
    have hlen := length_split 0x3f w
    rw [hsplit] at hlen
    simp only [List.map_cons, List.map_nil, List.sum_cons, List.sum_nil, List.length_cons, List.length_nil] at hlen
    obtain ⟨read, bs, hset, hbytes, rfl⟩ : ∃ read bs, sets.read (lower name) = some read ∧
        textBytes encoding text = some bs ∧ e = ⟨lower name, bs, read bs⟩ := by
      split at he
      · split at he
        · rename_i read bs hset hb
          exact ⟨read, bs, hset, hb, (Option.some.inj he).symm⟩
        · cases he
      · cases he
    have hle : bs.length ≤ text.length := by
      unfold textBytes at hbytes
      split at hbytes
      · exact mailBase64.length_decode_le hbytes
      · split at hbytes
        · exact length_quotedBytes_le hbytes
        · cases hbytes
    have hread := sets.length_le _ _ bs hset
    dsimp only
    omega
  · cases he

/-- A reader shows a character less for every encoded word. -/
private theorem length_readPieces_le (sets : Charsets) (ps : List JsString) :
    (readPieces sets ps).length + ps.countP (fun w => (readWord sets w).isSome) ≤ ps.flatten.length := by
  have hone : ∀ w : JsString,
      ((readWord sets w).getD w).length + (if (readWord sets w).isSome then 1 else 0) ≤ w.length := by
    intro w
    cases hw : readWord sets w with
    | none => simp
    | some t =>
      have hlt := length_readWord_lt hw
      simpa using hlt
  fun_induction readPieces sets ps with
  | case1 w b v ps hboth ih =>
    have hw := hone w
    rw [List.countP_cons, List.countP_cons, List.flatten_cons, List.flatten_cons, List.length_append,
      List.length_append, List.length_append]
    have hb := hone b
    omega
  | case2 w b v ps hnot ih =>
    have hw := hone w
    rw [List.countP_cons, List.flatten_cons, List.length_append, List.length_append]
    omega
  | case3 w b =>
    have hw := hone w
    have hb := hone b
    simp only [List.countP_cons, List.countP_nil, List.flatten_cons, List.flatten_nil, List.length_append, List.length_nil]
    omega
  | case4 w =>
    have hw := hone w
    simp only [List.countP_cons, List.countP_nil, List.flatten_cons, List.flatten_nil, List.length_append, List.length_nil]
    omega
  | case5 => exact le_rfl

private theorem readPieces_of_none {ps : List JsString} (h : ∀ w ∈ ps, readWord sets w = none) :
    readPieces sets ps = ps.flatten := by
  fun_induction readPieces sets ps with
  | case1 w b v ps hboth ih =>
    rw [h w List.mem_cons_self] at hboth
    cases hboth
  | case2 w b v ps hnot ih =>
    rw [h w List.mem_cons_self, ih fun x hx => h x (List.mem_cons_of_mem w hx)]
    rfl
  | case3 w b =>
    rw [h w List.mem_cons_self, h b (List.mem_cons_of_mem w List.mem_cons_self)]
    simp
  | case4 w =>
    rw [h w List.mem_cons_self]
    simp
  | case5 => rfl

/-- A text is shown as it stands exactly when it has no encoded word. -/
private theorem readPieces_eq_iff (sets : Charsets) (s : JsString) :
    readPieces sets (pieces s) = s ↔ ∀ w ∈ pieces s, readWord sets w = none := by
  have hflat : (pieces s).flatten = s := List.flatten_splitBy _ s
  constructor
  · intro heq w hw
    have hle := length_readPieces_le sets (pieces s)
    rw [heq, hflat] at hle
    have hzero : (pieces s).countP (fun w => (readWord sets w).isSome) = 0 := by omega
    have hnone := List.countP_eq_zero.1 hzero w hw
    simpa using hnone
  · intro h
    rw [readPieces_of_none h, hflat]

/-! ### The words that are written -/

private theorem isBreak_unbreak {s : JsString} : ∀ u ∈ unbreak s, isBreak u = false := by
  fun_induction unbreak s with
  | case1 u v s hu hv ih => exact ih
  | case2 u v s hu hv ih => exact List.forall_mem_cons.2 ⟨by decide, ih⟩
  | case3 u v s hu ih => exact List.forall_mem_cons.2 ⟨Bool.not_eq_true _ ▸ hu, ih⟩
  | case4 u =>
    refine List.forall_mem_cons.2 ⟨?_, fun _ h => absurd h List.not_mem_nil⟩
    split
    · decide
    · rename_i hu
      exact Bool.not_eq_true _ ▸ hu
  | case5 => exact fun _ h => absurd h List.not_mem_nil

private theorem flatten_slices (cs : List JsString) : (slices cs).flatten = cs := by
  have hall : ∀ k, ((List.range k).map fun i => (cs.drop (12 * i)).take 12).flatten = cs.take (12 * k) := by
    intro k
    induction k with
    | zero => rfl
    | succ k ih =>
      rw [List.range_succ, List.map_append, List.flatten_append, ih, show 12 * (k + 1) = 12 * k + 12 by omega,
        List.take_add]
      simp
  rw [slices, hall, List.take_of_length_le (by omega)]

private theorem mem_slices {s : JsString} {cs : List JsString} (h : cs ∈ slices (chars s)) :
    chars cs.flatten = cs ∧ cs ≠ [] := by
  obtain ⟨i, hi, rfl⟩ := List.mem_map.1 h
  have hi := List.mem_range.1 hi
  refine ⟨chars_slice s (12 * i) 12, ?_⟩
  rw [← List.length_pos_iff, List.length_take, List.length_drop]
  omega

private theorem flatten_ne_nil {s : JsString} {cs : List JsString} (h : cs ∈ slices (chars s)) : cs.flatten ≠ [] := by
  obtain ⟨hchars, hne⟩ := mem_slices h
  intro hnil
  rw [hnil] at hchars
  exact hne hchars.symm

private theorem encodeUtf8_ne_nil {s : JsString} (h : s ≠ []) : encodeUtf8 s ≠ [] := by
  intro hnil
  have hall := List.flatMap_eq_nil_iff.1 hnil
  cases hs : chars s with
  | nil =>
    have hflat := flatten_chars s
    rw [hs] at hflat
    exact h hflat.symm
  | cons c cs =>
    have hc := hall c (hs ▸ List.mem_cons_self)
    have hne : utf8 (pointOf c) ≠ [] := by
      unfold utf8
      split
      · exact List.cons_ne_nil _ _
      · split
        · exact List.cons_ne_nil _ _
        · split <;> exact List.cons_ne_nil _ _
    exact hne (List.map_eq_nil_iff.1 hc)

private theorem mailDigits {s : JsString} : ∀ u ∈ b64 s, u ≠ 0x3f ∧ isBlank u = false ∧ isBreak u = false := by
  intro u hu
  have hall : ∀ n < 64, mailDigit n ≠ 0x3f ∧ isBlank (mailDigit n) = false ∧ isBreak (mailDigit n) = false := by decide
  rcases mailBase64.mem_encode hu with ⟨n, hn, rfl⟩ | rfl
  · exact hall n hn
  · exact ⟨by decide, by decide, by decide⟩

private theorem wordOf_eq (cs : List JsString) : wordOf cs =
    js "=" ++ 0x3f :: (js "UTF-8" ++ 0x3f :: (js "B" ++ 0x3f :: (b64 cs.flatten ++ 0x3f :: js "="))) := by
  rw [wordOf, show js "=?UTF-8?B?" = js "=" ++ 0x3f :: (js "UTF-8" ++ 0x3f :: (js "B" ++ [0x3f])) from by decide +kernel]
  simp only [List.append_assoc, List.cons_append]
  rfl

private theorem wordOf_units (cs : List JsString) : ∀ u ∈ wordOf cs, isBlank u = false ∧ isBreak u = false := by
  have hall : (js "=?UTF-8?B?" ++ js "?=").all (fun u => !isBlank u && !isBreak u) = true := by decide +kernel
  have hwords : ∀ u ∈ js "=?UTF-8?B?" ++ js "?=", isBlank u = false ∧ isBreak u = false := by
    intro u hu
    have h := List.all_eq_true.1 hall u hu
    simpa using h
  intro u hu
  rw [wordOf, List.mem_append, List.mem_append] at hu
  rcases hu with (hu | hu) | hu
  · exact hwords u (List.mem_append_left _ hu)
  · exact (mailDigits u hu).2
  · exact hwords u (List.mem_append_right _ hu)

private theorem length_wordOf (cs : List JsString) :
    (wordOf cs).length = 12 + 4 * (((encodeUtf8 cs.flatten).length + 2) / 3) := by
  rw [wordOf, List.length_append, List.length_append, b64, mailBase64.length_encode,
    show (js "=?UTF-8?B?").length = 10 from by decide +kernel, show (js "?=").length = 2 from by decide +kernel]
  omega

/-- A word that is written is read as the bytes in it. -/
private theorem encodedWord_wordOf {cs : List JsString} (h : cs.flatten ≠ []) :
    encodedWord sets (wordOf cs) = some ⟨js "utf-8", encodeUtf8 cs.flatten, decodeUtf8 (encodeUtf8 cs.flatten)⟩ := by
  have hsplit : split 0x3f (wordOf cs) = [js "=", js "UTF-8", js "B", b64 cs.flatten, js "="] := by
    rw [wordOf_eq, split_append_cons (by decide +kernel), split_append_cons (by decide +kernel),
      split_append_cons (by decide +kernel), split_append_cons fun hmem => (mailDigits _ hmem).1 rfl,
      split_of_notMem (by decide +kernel)]
  have hne : b64 cs.flatten ≠ [] := mt mailBase64.encode_eq_nil.1 (encodeUtf8_ne_nil h)
  have hname : lower (js "UTF-8") = js "utf-8" := by decide +kernel
  have hbytes : textBytes (js "B") (b64 cs.flatten) = some (encodeUtf8 cs.flatten) := by
    rw [textBytes, if_pos (by decide +kernel)]
    exact mailBase64.decode_encode _
  unfold encodedWord
  rw [hsplit]
  dsimp only
  rw [if_pos ⟨rfl, rfl, hne⟩, hname, sets.utf8, hbytes]

private theorem mem_of_mem_intersperse {ws : List JsString} {sep w : JsString} (h : w ∈ ws.intersperse sep) :
    w ∈ ws ∨ w = sep := by
  induction ws with
  | nil => cases h
  | cons v ws ih =>
    cases ws with
    | nil => exact Or.inl h
    | cons x ws =>
      rw [List.intersperse_cons_cons] at h
      rcases List.mem_cons.1 h with rfl | h
      · exact Or.inl List.mem_cons_self
      · rcases List.mem_cons.1 h with rfl | h
        · exact Or.inr rfl
        · exact (ih h).imp_left (List.mem_cons_of_mem v)

private theorem mem_intersperse {ws : List JsString} {w : JsString} (sep : JsString) (h : w ∈ ws) :
    w ∈ ws.intersperse sep := by
  induction ws with
  | nil => cases h
  | cons v ws ih =>
    cases ws with
    | nil => exact h
    | cons x ws =>
      rw [List.intersperse_cons_cons]
      rcases List.mem_cons.1 h with rfl | h
      · exact List.mem_cons_self
      · exact List.mem_cons_of_mem v (List.mem_cons_of_mem sep (ih h))

/-- The words of a subject, as a reader finds and shows them. -/
private theorem reader_words (sets : Charsets) (s : JsString) :
    pieces (unfoldLines (foldWords ((slices (chars s)).map wordOf))) =
        ((slices (chars s)).map wordOf).intersperse [0x20] ∧
      decodeHeader sets (foldWords ((slices (chars s)).map wordOf)) = wellFormed s := by
  have hunits : ∀ w ∈ (slices (chars s)).map wordOf, ∀ u ∈ w, isBlank u = false ∧ isBreak u = false := by
    intro w hw u hu
    obtain ⟨cs, -, rfl⟩ := List.mem_map.1 hw
    exact wordOf_units cs u hu
  have hread : ∀ cs ∈ slices (chars s), readWord sets (wordOf cs) = some (wellFormed cs.flatten) := by
    intro cs hcs
    rw [readWord, encodedWord_wordOf (flatten_ne_nil hcs)]
    exact congrArg some (decodeUtf8_encodeUtf8 cs.flatten).2
  have hpieces : pieces (unfoldLines (foldWords ((slices (chars s)).map wordOf))) =
      ((slices (chars s)).map wordOf).intersperse [0x20] := by
    rw [unfoldLines_foldWords fun w hw u hu => (hunits w hw u hu).2]
    refine pieces_spaced (fun w hw hnil => ?_) fun w hw u hu => (hunits w hw u hu).1
    obtain ⟨cs, -, rfl⟩ := List.mem_map.1 hw
    have hlen := length_wordOf cs
    rw [hnil, List.length_nil] at hlen
    omega
  refine ⟨hpieces, ?_⟩
  have hshown : ∀ w ∈ (slices (chars s)).map wordOf, readWord sets w = some ((readWord sets w).getD []) := by
    intro w hw
    obtain ⟨cs, hcs, rfl⟩ := List.mem_map.1 hw
    rw [hread cs hcs]
    rfl
  have hslice : ∀ cs ∈ slices (chars s),
      (readWord sets (wordOf cs)).getD [] = cs.flatMap fun c => codeUnits (pointOf c) := by
    intro cs hcs
    rw [hread cs hcs, Option.getD_some, wellFormed, (mem_slices hcs).1]
  calc decodeHeader sets (foldWords ((slices (chars s)).map wordOf))
      = ((slices (chars s)).map wordOf).flatMap fun w => (readWord sets w).getD [] := by
        rw [decodeHeader, hpieces, readPieces_spaced _ hshown]
    _ = (slices (chars s)).flatMap fun cs => (readWord sets (wordOf cs)).getD [] := List.flatMap_map _ _ _
    _ = (slices (chars s)).flatMap fun cs => cs.flatMap fun c => codeUnits (pointOf c) := List.flatMap_congr hslice
    _ = (slices (chars s)).flatten.flatMap fun c => codeUnits (pointOf c) := by
        simp only [List.flatMap_def, List.map_flatten, List.flatten_flatten, List.map_map]
        rfl
    _ = wellFormed s := by rw [flatten_slices]; rfl

/-! ### When the subject is read back -/

/-- A subject that is written as it is has no encoded word in it; of any other one, no twelve characters are more than 45
bytes, and none is half of a pair. -/
def Encodable (sets : Charsets) (subject : JsString) : Prop :=
  (isPrintable (unbreak subject) = true → ∀ w ∈ pieces (unbreak subject), encodedWord sets w = none) ∧
    (isPrintable (unbreak subject) = false → ∀ cs ∈ slices (chars (unbreak subject)),
      (encodeUtf8 cs.flatten).length ≤ 45 ∧ ∀ c ∈ cs, isLone c = false)

instance (sets : Charsets) (subject : JsString) : Decidable (Encodable sets subject) := inferInstanceAs (Decidable (_ ∧ _))

private theorem readWord_eq_none {w : JsString} :
    readWord sets w = none ↔ encodedWord sets w = none := Option.map_eq_none_iff

/-- A subject that is written as it is. -/
private theorem wellEncoded_plain_iff {subject : JsString} (hplain : isPrintable (unbreak subject) = true) :
    WellEncoded sets subject (header subject) ↔ ∀ w ∈ pieces (unbreak subject), encodedWord sets w = none := by
  have hbreaks : ∀ u ∈ unbreak subject, isBreak u = false := isBreak_unbreak
  have hheader : header subject = unbreak subject := if_pos hplain
  have hunfold : unfoldLines (unbreak subject) = unbreak subject := unfoldLines_eq_self hbreaks
  have hiff := readPieces_eq_iff sets (unbreak subject)
  rw [hheader]
  constructor
  · intro h
    have hdecoded := h.decoded
    rw [decodeHeader, hunfold] at hdecoded
    exact fun w hw => readWord_eq_none.1 (hiff.1 hdecoded w hw)
  · intro hnone
    refine ⟨⟨[unbreak subject], rfl, fun w hw => ?_, fun htwo => absurd htwo (Nat.lt_irrefl 1)⟩, ?_, ?_, ?_⟩
    · rw [List.mem_singleton.1 hw]
      exact hbreaks
    · intro w hw hsome
      rw [hunfold] at hw
      rw [hnone w hw] at hsome
      cases hsome
    · intro w hw e he _
      rw [hunfold] at hw
      rw [hnone w hw] at he
      cases he
    · rw [decodeHeader, hunfold]
      exact hiff.2 fun w hw => readWord_eq_none.2 (hnone w hw)

/-- A subject that is written in encoded words. -/
private theorem wellEncoded_words_iff {subject : JsString} (hplain : isPrintable (unbreak subject) = false) :
    WellEncoded sets subject (header subject) ↔ ∀ cs ∈ slices (chars (unbreak subject)),
      (encodeUtf8 cs.flatten).length ≤ 45 ∧ ∀ c ∈ cs, isLone c = false := by
  have hheader : header subject = foldWords ((slices (chars (unbreak subject))).map wordOf) :=
    if_neg (by rw [hplain]; exact Bool.false_ne_true)
  obtain ⟨hpieces, hdecode⟩ := reader_words sets (unbreak subject)
  have hwords : ∀ cs ∈ slices (chars (unbreak subject)),
      encodedWord sets (wordOf cs) = some ⟨js "utf-8", encodeUtf8 cs.flatten, decodeUtf8 (encodeUtf8 cs.flatten)⟩ :=
    fun cs hcs => encodedWord_wordOf (flatten_ne_nil hcs)
  have hspace : encodedWord sets [0x20] = none := rfl
  rw [hheader]
  constructor
  · intro h cs hcs
    constructor
    · have hshort := h.short (wordOf cs)
        (hpieces ▸ mem_intersperse [0x20] (List.mem_map_of_mem hcs)) (by rw [hwords cs hcs]; rfl)
      rw [length_wordOf] at hshort
      omega
    · intro c hc
      have hself : wellFormed (unbreak subject) = unbreak subject := hdecode.symm.trans h.decoded
      have hmem : c ∈ (slices (chars (unbreak subject))).flatten := List.mem_flatten.2 ⟨cs, hcs, hc⟩
      rw [flatten_slices] at hmem
      exact isLone_of_wellFormed hself hmem
  · intro hslices
    -- every piece is a space or a word that was written
    have hpiece : ∀ w ∈ pieces (unfoldLines (foldWords ((slices (chars (unbreak subject))).map wordOf))),
        (∃ cs ∈ slices (chars (unbreak subject)), w = wordOf cs) ∨ w = [0x20] := by
      intro w hw
      rw [hpieces] at hw
      refine (mem_of_mem_intersperse hw).imp_left fun hw => ?_
      obtain ⟨cs, hcs, rfl⟩ := List.mem_map.1 hw
      exact ⟨cs, hcs, rfl⟩
    refine ⟨⟨_, rfl, fun w hw u hu => ?_, fun _ w hw => ?_⟩, ?_, ?_, ?_⟩
    · obtain ⟨cs, -, rfl⟩ := List.mem_map.1 hw
      exact (wordOf_units cs u hu).2
    · obtain ⟨cs, hcs, rfl⟩ := List.mem_map.1 hw
      rw [hwords cs hcs]
      rfl
    · intro w hw hsome
      rcases hpiece w hw with ⟨cs, hcs, rfl⟩ | rfl
      · have hle := (hslices cs hcs).1
        rw [length_wordOf]
        omega
      · rw [hspace] at hsome
        cases hsome
    · intro w hw e he _
      rcases hpiece w hw with ⟨cs, hcs, rfl⟩ | rfl
      · rw [hwords cs hcs] at he
        cases he
        exact (decodeUtf8_encodeUtf8 cs.flatten).1
      · rw [hspace] at he
        cases he
    · rw [hdecode]
      refine wellFormed_eq_self fun c hc => ?_
      rw [← flatten_slices (chars (unbreak subject))] at hc
      obtain ⟨cs, hcs, hc⟩ := List.mem_flatten.1 hc
      exact (hslices cs hcs).2 c hc

/-- **The subject read back.**  For every reader and subject, the header is folded between encoded words only, has no
encoded word above 75 characters, splits no character and is read back as the subject with its line ends as spaces,
exactly when a subject of printable ASCII has no encoded word in it, and any other one no twelve characters of more than
45 bytes and no broken pair. -/
theorem subject_read_back_iff (sets : Charsets) (subject : JsString) :
    WellEncoded sets subject (header subject) ↔ Encodable sets subject := by
  cases hplain : isPrintable (unbreak subject) with
  | true =>
    have hno : ¬ isPrintable (unbreak subject) = false := by simp [hplain]
    rw [wellEncoded_plain_iff hplain]
    exact ⟨fun h => ⟨fun _ => h, fun h' => absurd h' hno⟩, fun h => h.1 hplain⟩
  | false =>
    have hno : ¬ isPrintable (unbreak subject) = true := by simp [hplain]
    rw [wellEncoded_words_iff hplain]
    exact ⟨fun h => ⟨fun h' => absurd h' hno, fun _ => h⟩, fun h => h.2 hplain⟩

/-- Twelve characters of four bytes make a word of 76 characters, and a subject of plain ASCII is read as the encoded
word it looks like. -/
theorem subject_not_read_back :
    ¬ WellEncoded latinReader (js "😀😀😀😀😀😀😀😀😀😀😀😀") (header (js "😀😀😀😀😀😀😀😀😀😀😀😀")) ∧
      header (js "=?UTF-8?B?eA==?=") = js "=?UTF-8?B?eA==?=" ∧ decodeHeader latinReader (js "=?UTF-8?B?eA==?=") = js "x" ∧
      ¬ WellEncoded latinReader (js "=?UTF-8?B?eA==?=") (header (js "=?UTF-8?B?eA==?=")) := by
  have hraw : header (js "=?UTF-8?B?eA==?=") = js "=?UTF-8?B?eA==?=" := by decide +kernel
  have hshown : decodeHeader latinReader (js "=?UTF-8?B?eA==?=") = js "x" := by decide +kernel
  refine ⟨fun h => ?_, hraw, hshown, fun h => ?_⟩
  · have hall : (pieces (unfoldLines (header (js "😀😀😀😀😀😀😀😀😀😀😀😀")))).all
        (fun w => !(encodedWord latinReader w).isSome || decide (w.length ≤ 75)) = false := by decide +kernel
    refine absurd (List.all_eq_true.2 fun w hw => ?_) (Bool.eq_false_iff.1 hall)
    have hshort := h.short w hw
    cases hword : (encodedWord latinReader w).isSome with
    | true => simpa using hshort hword
    | false => rfl
  · have hdecoded := h.decoded
    rw [hraw, hshown] at hdecoded
    exact absurd hdecoded (by decide +kernel)

end Servitals
