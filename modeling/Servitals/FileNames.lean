import Servitals.History
import Servitals.NodeReadings

/-!
# The files of series

A series' file is its name percent-encoded, or a hash of the name.  Decoding undoes the encoding
(`decode_encode`), and only a name that begins with `h-` is encoded like a hashed one, which no name of `seriesOf` does
(`IsSeriesName.not_hashed`).  So names whose hashes are different have different files (`fileOf_injOn`), and each file is
one of the node's directory (`fileOf_inside`).
-/

namespace Servitals

/-! ### Decoding -/

/-- A part of an encoded name: a code unit as it stands, or the octet of an escape. -/
inductive UriPart
  | unit (u : UInt16)
  | octet (b : ℕ)

/-- The parts of an encoded name, or none when an escape is broken. -/
def uriParts : JsString → Option (List UriPart)
  | [] => some []
  | u :: s =>
    if u = 0x25 then match s with
      | h :: l :: s => (hexValue h).bind fun x => (hexValue l).bind fun y => (uriParts s).map (.octet (16 * x + y) :: ·)
      | _ => none
    else (uriParts s).map (.unit u :: ·)

/-- Is the number a code point, and no half of a pair? -/
def isScalar (c : ℕ) : Bool := c < 0xd800 || (0xe000 ≤ c && c < 0x110000)

/-- The code units of a code point. -/
def codeUnits (c : ℕ) : JsString :=
  if c < 0x10000 then [.ofNat c]
  else [.ofNat (0xd800 + (c - 0x10000) / 0x400), .ofNat (0xdc00 + (c - 0x10000) % 0x400)]

/-- The code units of a code point, when these octets are its UTF-8. -/
def pointUnits (c : ℕ) (octets : List ℕ) : Option JsString :=
  if isScalar c && utf8 c == octets then some (codeUnits c) else none

/-- The string of some parts, or none when their octets are no UTF-8. -/
def decodeParts : List UriPart → Option JsString
  | [] => some []
  | .unit u :: ps => (decodeParts ps).map (u :: ·)
  | .octet b :: ps =>
    if b < 0x80 then (decodeParts ps).map (.ofNat b :: ·)
    else if b < 0xe0 then match ps with
      | .octet c :: ps => (pointUnits ((b - 0xc0) * 0x40 + (c - 0x80)) [b, c]).bind fun s => (decodeParts ps).map (s ++ ·)
      | _ => none
    else if b < 0xf0 then match ps with
      | .octet c :: .octet d :: ps =>
        (pointUnits ((b - 0xe0) * 0x1000 + (c - 0x80) * 0x40 + (d - 0x80)) [b, c, d]).bind fun s =>
          (decodeParts ps).map (s ++ ·)
      | _ => none
    else match ps with
      | .octet c :: .octet d :: .octet e :: ps =>
        (pointUnits ((b - 0xf0) * 0x40000 + (c - 0x80) * 0x1000 + (d - 0x80) * 0x40 + (e - 0x80)) [b, c, d, e]).bind
          fun s => (decodeParts ps).map (s ++ ·)
      | _ => none

/-- `decodeURIComponent`, none when it throws. -/
def decodeURIComponent (s : JsString) : Option JsString := (uriParts s).bind decodeParts

/-! ### Decoding what was encoded -/

private theorem hexValue_upperHex : ∀ n < 16, hexValue (upperHex n) = some n := by decide

private theorem isUnreserved_lt {c : ℕ} (h : isUnreserved c = true) : c < 0x80 := by
  unfold isUnreserved at h
  rw [Bool.and_eq_true, decide_eq_true_eq] at h
  exact h.1

/-- What is left as it is starts no escape and ends no directory. -/
private theorem isUnreserved_ne {c : ℕ} (h : isUnreserved c = true) :
    UInt16.ofNat c ≠ 0x25 ∧ UInt16.ofNat c ≠ 0x2f := by
  have hall : ∀ c < 0x80, isUnreserved c = true → UInt16.ofNat c ≠ 0x25 ∧ UInt16.ofNat c ≠ 0x2f := by decide +kernel
  exact hall c (isUnreserved_lt h) h

theorem isScalar_lt {c : ℕ} (h : isScalar c = true) : c < 0x110000 := by
  simp only [isScalar, Bool.or_eq_true, Bool.and_eq_true, decide_eq_true_eq] at h
  omega

private theorem utf8_lt {c : ℕ} (h : c < 0x110000) : ∀ b ∈ utf8 c, b < 256 := by
  intro b hb
  unfold utf8 at hb
  split at hb
  · simp only [List.mem_singleton] at hb
    omega
  · split at hb
    · simp only [List.mem_cons, List.not_mem_nil, or_false] at hb
      omega
    · split at hb <;> simp only [List.mem_cons, List.not_mem_nil, or_false] at hb <;> omega

/-- The parts of an encoded code point. -/
def partsOf (c : ℕ) : List UriPart := if isUnreserved c then [.unit (.ofNat c)] else (utf8 c).map .octet

private theorem uriParts_escape {b : ℕ} (hb : b < 256) (s : JsString) :
    uriParts (0x25 :: upperHex (b / 16) :: upperHex (b % 16) :: s) = (uriParts s).map (.octet b :: ·) := by
  have hb' : 16 * (b / 16) + b % 16 = b := by omega
  rw [uriParts, if_pos rfl, hexValue_upperHex _ (by omega), Option.bind_some, hexValue_upperHex _ (by omega),
    Option.bind_some, hb']

private theorem uriParts_unit {u : UInt16} (hu : u ≠ 0x25) (s : JsString) :
    uriParts (u :: s) = (uriParts s).map (.unit u :: ·) := by
  conv_lhs => unfold uriParts
  rw [if_neg hu]

private theorem uriParts_escapes {bs : List ℕ} (hbs : ∀ b ∈ bs, b < 256) (s : JsString) :
    uriParts ((bs.flatMap fun b => [0x25, upperHex (b / 16), upperHex (b % 16)]) ++ s) =
      (uriParts s).map (bs.map .octet ++ ·) := by
  induction bs with
  | nil => simp
  | cons b bs ih =>
    have hrest := ih fun b' hb' => hbs b' (List.mem_cons_of_mem b hb')
    rw [List.flatMap_cons, List.append_assoc, List.cons_append, List.cons_append, List.cons_append, List.nil_append,
      uriParts_escape (hbs b List.mem_cons_self), hrest, Option.map_map]
    rfl

private theorem uriParts_encodePoint {c : ℕ} (hc : isScalar c = true) (s : JsString) :
    uriParts (encodePoint c ++ s) = (uriParts s).map (partsOf c ++ ·) := by
  unfold encodePoint partsOf
  by_cases h : isUnreserved c = true
  · rw [if_pos h, if_pos h, List.singleton_append, uriParts_unit (isUnreserved_ne h).1]
    rfl
  · rw [if_neg h, if_neg h, uriParts_escapes (utf8_lt (isScalar_lt hc))]

private theorem pointUnits_utf8 {c : ℕ} (hc : isScalar c = true) {octets : List ℕ} (h : utf8 c = octets) :
    pointUnits c octets = some (codeUnits c) := by
  rw [pointUnits, hc, h]
  simp

private theorem decodeParts_unit (u : UInt16) (ps : List UriPart) :
    decodeParts (.unit u :: ps) = (decodeParts ps).map ([u] ++ ·) := by
  conv_lhs => unfold decodeParts
  rfl

private theorem decodeParts_one {b : ℕ} (hb : b < 0x80) (ps : List UriPart) :
    decodeParts (.octet b :: ps) = (decodeParts ps).map ([.ofNat b] ++ ·) := by
  conv_lhs => unfold decodeParts
  rw [if_pos hb]
  rfl

private theorem decodeParts_two {b c x : ℕ} (hx : isScalar x = true) (hutf : utf8 x = [b, c]) (hb : 0x80 ≤ b)
    (hb' : b < 0xe0)
    (hpoint : (b - 0xc0) * 0x40 + (c - 0x80) = x) (ps : List UriPart) :
    decodeParts (.octet b :: .octet c :: ps) = (decodeParts ps).map (codeUnits x ++ ·) := by
  conv_lhs => unfold decodeParts
  rw [if_neg (not_lt.2 hb), if_pos hb']
  dsimp only
  rw [hpoint, pointUnits_utf8 hx hutf, Option.bind_some]

private theorem decodeParts_three {b c d x : ℕ} (hx : isScalar x = true) (hutf : utf8 x = [b, c, d]) (hb : 0xe0 ≤ b)
    (hb' : b < 0xf0) (hpoint : (b - 0xe0) * 0x1000 + (c - 0x80) * 0x40 + (d - 0x80) = x) (ps : List UriPart) :
    decodeParts (.octet b :: .octet c :: .octet d :: ps) = (decodeParts ps).map (codeUnits x ++ ·) := by
  have hb0 : ¬ b < 0x80 := by omega
  conv_lhs => unfold decodeParts
  rw [if_neg hb0, if_neg (not_lt.2 hb), if_pos hb']
  dsimp only
  rw [hpoint, pointUnits_utf8 hx hutf, Option.bind_some]

private theorem decodeParts_four {b c d e x : ℕ} (hx : isScalar x = true) (hutf : utf8 x = [b, c, d, e]) (hb : 0xf0 ≤ b)
    (hpoint : (b - 0xf0) * 0x40000 + (c - 0x80) * 0x1000 + (d - 0x80) * 0x40 + (e - 0x80) = x) (ps : List UriPart) :
    decodeParts (.octet b :: .octet c :: .octet d :: .octet e :: ps) = (decodeParts ps).map (codeUnits x ++ ·) := by
  have hb0 : ¬ b < 0x80 := by omega
  have hb1 : ¬ b < 0xe0 := by omega
  conv_lhs => unfold decodeParts
  rw [if_neg hb0, if_neg hb1, if_neg (not_lt.2 hb)]
  dsimp only
  rw [hpoint, pointUnits_utf8 hx hutf, Option.bind_some]

theorem codeUnits_small {c : ℕ} (h : c < 0x10000) : codeUnits c = [.ofNat c] := if_pos h

private theorem decodeParts_partsOf {c : ℕ} (hc : isScalar c = true) (ps : List UriPart) :
    decodeParts (partsOf c ++ ps) = (decodeParts ps).map (codeUnits c ++ ·) := by
  have hlt := isScalar_lt hc
  unfold partsOf
  by_cases hun : isUnreserved c = true
  · have hsmall := isUnreserved_lt hun
    rw [if_pos hun, codeUnits_small (by omega)]
    exact decodeParts_unit _ ps
  · rw [if_neg hun]
    by_cases h1 : c < 0x80
    · have hutf : utf8 c = [c] := if_pos h1
      rw [hutf, codeUnits_small (by omega)]
      exact decodeParts_one h1 ps
    · by_cases h2 : c < 0x800
      · have hutf : utf8 c = [0xc0 + c / 0x40, 0x80 + c % 0x40] := by rw [utf8, if_neg h1, if_pos h2]
        rw [hutf]
        exact decodeParts_two hc hutf (by omega) (by omega) (by omega) ps
      · by_cases h3 : c < 0x10000
        · have hutf : utf8 c = [0xe0 + c / 0x1000, 0x80 + c / 0x40 % 0x40, 0x80 + c % 0x40] := by
            rw [utf8, if_neg h1, if_neg h2, if_pos h3]
          rw [hutf]
          exact decodeParts_three hc hutf (by omega) (by omega) (by omega) ps
        · have hutf : utf8 c =
              [0xf0 + c / 0x40000, 0x80 + c / 0x1000 % 0x40, 0x80 + c / 0x40 % 0x40, 0x80 + c % 0x40] := by
            rw [utf8, if_neg h1, if_neg h2, if_neg h3]
          rw [hutf]
          exact decodeParts_four hc hutf (by omega) (by omega) ps

/-- Two halves are the code units of the code point they stand for. -/
theorem codeUnits_pair {u v : UInt16} (hu : 0xd800 ≤ u.toNat ∧ u.toNat ≤ 0xdbff)
    (hv : 0xdc00 ≤ v.toNat ∧ v.toNat ≤ 0xdfff) :
    codeUnits (0x10000 + (u.toNat - 0xd800) * 0x400 + (v.toNat - 0xdc00)) = [u, v] := by
  generalize hc : 0x10000 + (u.toNat - 0xd800) * 0x400 + (v.toNat - 0xdc00) = c
  have hbig : ¬ c < 0x10000 := by omega
  have hu' : 0xd800 + (c - 0x10000) / 0x400 = u.toNat := by omega
  have hv' : 0xdc00 + (c - 0x10000) % 0x400 = v.toNat := by omega
  rw [codeUnits, if_neg hbig, hu', hv', UInt16.ofNat_toNat, UInt16.ofNat_toNat]

theorem isScalar_pair {u v : UInt16} (hu : 0xd800 ≤ u.toNat ∧ u.toNat ≤ 0xdbff)
    (hv : 0xdc00 ≤ v.toNat ∧ v.toNat ≤ 0xdfff) :
    isScalar (0x10000 + (u.toNat - 0xd800) * 0x400 + (v.toNat - 0xdc00)) = true := by
  simp only [isScalar, Bool.or_eq_true, Bool.and_eq_true, decide_eq_true_eq]
  omega

/-- The code points of a string are its code units, and none is half of a pair. -/
private theorem codePoints_spec {s : JsString} {cs : List ℕ} (h : codePoints s = some cs) :
    cs.flatMap codeUnits = s ∧ ∀ c ∈ cs, isScalar c = true := by
  have hhigh : ∀ u, isHigh u = true ↔ 0xd800 ≤ u.toNat ∧ u.toNat ≤ 0xdbff := by
    intro u
    rw [isHigh, Bool.and_eq_true, decide_eq_true_eq, decide_eq_true_eq, UInt16.le_iff_toNat_le, UInt16.le_iff_toNat_le]
    rfl
  have hlow : ∀ u, isLow u = true ↔ 0xdc00 ≤ u.toNat ∧ u.toNat ≤ 0xdfff := by
    intro u
    rw [isLow, Bool.and_eq_true, decide_eq_true_eq, decide_eq_true_eq, UInt16.le_iff_toNat_le, UInt16.le_iff_toNat_le]
    rfl
  fun_induction codePoints s generalizing cs with
  | case1 =>
    obtain rfl := Option.some.inj h
    exact ⟨rfl, fun c hc => absurd hc List.not_mem_nil⟩
  | case2 u hu v s hv ih =>
    obtain ⟨rest, hrest, rfl⟩ := Option.map_eq_some_iff.1 h
    obtain ⟨hunits, hscalar⟩ := ih hrest
    rw [hhigh] at hu
    rw [hlow] at hv
    refine ⟨?_, fun c hc => ?_⟩
    · rw [List.flatMap_cons, hunits, codeUnits_pair hu hv]
      rfl
    · rcases List.mem_cons.1 hc with heq | hc
      · rw [heq]
        exact isScalar_pair hu hv
      · exact hscalar c hc
  | case3 => cases h
  | case4 => cases h
  | case5 => cases h
  | case6 u s hu hnot ih =>
    obtain ⟨rest, hrest, rfl⟩ := Option.map_eq_some_iff.1 h
    obtain ⟨hunits, hscalar⟩ := ih hrest
    rw [hhigh] at hu
    rw [hlow] at hnot
    have hlt : u.toNat < 0x10000 := by simpa using u.toNat_lt
    refine ⟨?_, fun c hc => ?_⟩
    · rw [List.flatMap_cons, hunits, codeUnits_small hlt, UInt16.ofNat_toNat]
      rfl
    · rcases List.mem_cons.1 hc with rfl | hc
      · simp only [isScalar, Bool.or_eq_true, Bool.and_eq_true, decide_eq_true_eq]
        omega
      · exact hscalar c hc

/-- Decoding gives back the name that was encoded. -/
theorem decode_encode {name : JsString} {cs : List ℕ} (h : codePoints name = some cs) :
    decodeURIComponent (cs.flatMap encodePoint) = some name := by
  obtain ⟨hunits, hscalar⟩ := codePoints_spec h
  have hparts : uriParts (cs.flatMap encodePoint) = some (cs.flatMap partsOf) := by
    clear h hunits
    induction cs with
    | nil => rfl
    | cons c cs ih =>
      rw [List.flatMap_cons, List.flatMap_cons, uriParts_encodePoint (hscalar c List.mem_cons_self),
        ih fun c' hc' => hscalar c' (List.mem_cons_of_mem c hc')]
      rfl
  have hdecode : decodeParts (cs.flatMap partsOf) = some (cs.flatMap codeUnits) := by
    clear h hunits hparts
    induction cs with
    | nil => rfl
    | cons c cs ih =>
      rw [List.flatMap_cons, List.flatMap_cons, decodeParts_partsOf (hscalar c List.mem_cons_self),
        ih fun c' hc' => hscalar c' (List.mem_cons_of_mem c hc')]
      rfl
  rw [decodeURIComponent, hparts, Option.bind_some, hdecode, hunits]

/-! ### Files -/

/-- Is it the file of a hashed name (`hashed`)? -/
def hashed (file : JsString) : Bool := (js "h-").isPrefixOf file

/-- The file that keeps the name of a hashed one, and the one a ring file is written as first. -/
def nameFile (file : JsString) : JsString := file.rdrop 5 ++ js ".name"

def tmpFile (file : JsString) : JsString := file ++ js ".tmp"

/-- A file of the directory itself: no separator is in it, and it does not stand for a directory. -/
def Inside (file : JsString) : Prop := 0x2f ∉ file ∧ file ≠ [] ∧ file ≠ js "." ∧ file ≠ js ".."

/-- The digest is hexadecimal. -/
def HexDigest (digest : JsString → JsString) : Prop := ∀ s, ∀ u ∈ digest s, (hexValue u).isSome = true

private theorem slash_notMem_hex {s : JsString} (h : ∀ u ∈ s, (hexValue u).isSome = true) : 0x2f ∉ s := by
  intro hmem
  have hslash := h _ hmem
  revert hslash
  decide

private theorem slash_notMem_encodePoint {c : ℕ} (hc : isScalar c = true) : 0x2f ∉ encodePoint c := by
  have hdigit : ∀ n < 16, upperHex n ≠ 0x2f := by decide
  unfold encodePoint
  by_cases h : isUnreserved c = true
  · rw [if_pos h, List.mem_singleton]
    exact (isUnreserved_ne h).2.symm
  · rw [if_neg h, List.mem_flatMap]
    rintro ⟨b, hb, hmem⟩
    have hlt := utf8_lt (isScalar_lt hc) b hb
    simp only [List.mem_cons, List.not_mem_nil, or_false] at hmem
    rcases hmem with hmem | hmem | hmem
    · revert hmem
      decide
    · exact hdigit _ (by omega) hmem.symm
    · exact hdigit _ (by omega) hmem.symm

variable {digest : JsString → JsString}

/-- The file of a name is its encoding, which decodes to it, or has its hash. -/
private theorem fileOf_cases (digest : JsString → JsString) (name : JsString) :
    (∃ enc, fileOf digest name = enc ++ js ".ring" ∧ decodeURIComponent enc = some name ∧ 0x2f ∉ enc) ∨
      fileOf digest name = js "h-" ++ digest name ++ js ".ring" := by
  unfold fileOf
  split
  · rename_i cs hcs
    dsimp only
    split
    · refine Or.inl ⟨_, rfl, decode_encode hcs, fun hmem => ?_⟩
      obtain ⟨c, hc, hmem⟩ := List.mem_flatMap.1 hmem
      exact slash_notMem_encodePoint ((codePoints_spec hcs).2 c hc) hmem
    · exact Or.inr rfl
  · exact Or.inr rfl

/-- An encoding that begins like a hashed file is of a name that does. -/
private theorem prefix_of_decode {enc name : JsString} (h : decodeURIComponent enc = some name) (hhash : js "h-" <+: enc) :
    js "h-" <+: name := by
  obtain ⟨s, rfl⟩ := hhash
  have hparts : uriParts (js "h-" ++ s) = (uriParts s).map ([.unit 0x68, .unit 0x2d] ++ ·) := by
    rw [show js "h-" ++ s = 0x68 :: 0x2d :: s from rfl, uriParts_unit (by decide), uriParts_unit (by decide),
      Option.map_map]
    rfl
  rw [decodeURIComponent, hparts] at h
  cases hs : uriParts s with
  | none =>
    rw [hs] at h
    cases h
  | some ps =>
    rw [hs, Option.map_some, Option.bind_some, List.cons_append, List.cons_append, List.nil_append, decodeParts_unit,
      decodeParts_unit, Option.map_map] at h
    obtain ⟨rest, -, rfl⟩ := Option.map_eq_some_iff.1 h
    exact ⟨rest, rfl⟩

/-- The end of a ring file's name is no part of what tells a hashed one. -/
private theorem prefix_of_ring {enc : JsString} (h : js "h-" <+: enc ++ js ".ring") : js "h-" <+: enc := by
  rcases enc with _ | ⟨a, _ | ⟨b, enc⟩⟩
  · revert h
    decide
  · have hdash : (0x2d : UInt16) = 0x2e := (List.cons_prefix_cons.1 (List.cons_prefix_cons.1 h).2).1
    exact absurd hdash (by decide)
  · obtain ⟨ha, h⟩ := List.cons_prefix_cons.1 h
    obtain ⟨hb, -⟩ := List.cons_prefix_cons.1 h
    rw [← ha, ← hb]
    exact ⟨enc, rfl⟩

/-- The file of a name that does not begin with `h-`, and how a listing reads it. -/
theorem fileOf_spec (digest : JsString → JsString) {name : JsString} (hname : ¬ js "h-" <+: name) :
    (hashed (fileOf digest name) = false ∧ decodeURIComponent ((fileOf digest name).rdrop 5) = some name) ∨
      (hashed (fileOf digest name) = true ∧ fileOf digest name = js "h-" ++ digest name ++ js ".ring") := by
  rcases fileOf_cases digest name with ⟨enc, hfile, hdecode, -⟩ | hfile
  · refine Or.inl ⟨?_, ?_⟩
    · rw [hashed, hfile, ← Bool.not_eq_true, List.isPrefixOf_iff_prefix]
      exact fun hhash => hname (prefix_of_decode hdecode (prefix_of_ring hhash))
    · rw [hfile]
      exact (congrArg decodeURIComponent (@List.rdrop_append_length _ enc (js ".ring"))).trans hdecode
  · refine Or.inr ⟨?_, hfile⟩
    rw [hashed, hfile, List.isPrefixOf_iff_prefix, List.append_assoc]
    exact List.prefix_append _ _

/-- Names whose hashes are different have different files. -/
theorem fileOf_injOn {K : Set JsString} (hK : ∀ n ∈ K, ¬ js "h-" <+: n) (hdigest : Set.InjOn digest K) :
    Set.InjOn (fileOf digest) K := by
  intro m hm n hn heq
  rcases fileOf_spec digest (hK m hm) with ⟨hm', hdm⟩ | ⟨hm', hfm⟩
  · rcases fileOf_spec digest (hK n hn) with ⟨hn', hdn⟩ | ⟨hn', -⟩
    · rw [heq, hdn] at hdm
      exact (Option.some.inj hdm).symm
    · rw [heq, hn'] at hm'
      cases hm'
  · rcases fileOf_spec digest (hK n hn) with ⟨hn', -⟩ | ⟨-, hfn⟩
    · rw [heq, hn'] at hm'
      cases hm'
    · rw [hfm, hfn, List.append_left_inj, List.append_right_inj] at heq
      exact hdigest hm hn heq

private theorem inside_append {s t : JsString} (hs : 0x2f ∉ s) (ht : 0x2f ∉ t) (hlen : 3 ≤ t.length) :
    Inside (s ++ t) := by
  have hne : ∀ d : JsString, d.length < 3 → s ++ t ≠ d := by
    rintro d hd rfl
    rw [List.length_append] at hd
    omega
  refine ⟨?_, hne _ (by decide), hne _ (by decide), hne _ (by decide)⟩
  rw [List.mem_append, not_or]
  exact ⟨hs, ht⟩

/-- A series' file, the one that keeps its name and the one it is written as first are in the node's directory. -/
theorem fileOf_inside (hhex : HexDigest digest) (name : JsString) :
    Inside (fileOf digest name) ∧ Inside (nameFile (fileOf digest name)) ∧ Inside (tmpFile (fileOf digest name)) := by
  obtain ⟨enc, hfile, henc⟩ : ∃ enc, fileOf digest name = enc ++ js ".ring" ∧ 0x2f ∉ enc := by
    rcases fileOf_cases digest name with ⟨enc, hfile, -, henc⟩ | hfile
    · exact ⟨enc, hfile, henc⟩
    · refine ⟨_, hfile, ?_⟩
      rw [List.mem_append, not_or]
      exact ⟨by decide, slash_notMem_hex (hhex name)⟩
  have hname : nameFile (enc ++ js ".ring") = enc ++ js ".name" :=
    congrArg (· ++ js ".name") (@List.rdrop_append_length _ enc (js ".ring"))
  have htmp : tmpFile (enc ++ js ".ring") = enc ++ (js ".ring" ++ js ".tmp") := List.append_assoc _ _ _
  rw [hfile, hname, htmp]
  exact ⟨inside_append henc (by decide) (by decide), inside_append henc (by decide) (by decide),
    inside_append henc (by decide) (by decide)⟩

/-! ### The names of series -/

/-- A name that `seriesOf` gives for the view of a snapshot that the validator let through. -/
def IsSeriesName (name : JsString) : Prop :=
  ∃ s cur dropped prev trend, Snapshot.validate s = .ok (cur, dropped) ∧
    name ∈ (Snapshot.seriesOf (Snapshot.view cur prev trend)).keys

private theorem mem_keys_foldl_putValue {es : List (JsString × Option ℚ)} {out : OMap JsString ℚ} {name : JsString}
    (h : name ∈ (es.foldl Snapshot.putValue out).keys) : name ∈ out.keys ∨ ∃ v, (name, some v) ∈ es := by
  induction es generalizing out with
  | nil => exact Or.inl h
  | cons e es ih =>
    rcases ih h with hout | ⟨v, hv⟩
    · obtain ⟨k, _ | v⟩ := e
      · exact Or.inl hout
      · rcases OMap.mem_keys_setEntries.1 hout with rfl | hold
        · exact Or.inr ⟨v, List.mem_cons_self⟩
        · exact Or.inl hold
    · exact Or.inr ⟨v, List.mem_cons_of_mem e hv⟩

/-- No name of a view's series begins with an `h`. -/
private theorem head_seriesValues (v : Json) : ∀ e ∈ Snapshot.seriesValues v, e.1.head? ≠ some 0x68 := by
  have hfirst : ∀ (p : String) (s : JsString), (js p).head?.any (· ≠ 0x68) = true → (js p ++ s).head? ≠ some 0x68 := by
    intro p s hp
    rw [List.head?_append]
    cases hhead : (js p).head? with
    | none =>
      rw [hhead] at hp
      cases hp
    | some u =>
      rw [hhead, Option.any_some, decide_eq_true_eq] at hp
      rw [Option.some_or]
      exact fun h => hp (Option.some.inj h)
  have hconst : ∀ p : String, (js p).head?.any (· ≠ 0x68) = true → (js p).head? ≠ some 0x68 := fun p hp => by
    have h := hfirst p [] hp
    rwa [List.append_nil] at h
  unfold Snapshot.seriesValues
  dsimp only
  intro e he
  simp only [List.mem_append, List.mem_map, List.mem_flatMap, List.mem_cons, List.not_mem_nil, or_false] at he
  rcases he with (((((rfl | rfl | rfl | rfl | rfl | rfl) | ⟨r, -, rfl⟩) | rfl | rfl) | ⟨d, -, rfl⟩) | ⟨d, -, rfl | rfl⟩) |
    ⟨c, -, rfl | rfl⟩
  all_goals first
    | exact hconst _ (by decide)
    | exact hfirst _ _ (by decide)
    | rw [List.append_assoc]; exact hfirst _ _ (by decide)

/-- No series is taken for a hashed one. -/
theorem IsSeriesName.not_hashed {name : JsString} (h : IsSeriesName name) : ¬ js "h-" <+: name := by
  obtain ⟨s, cur, dropped, prev, trend, -, hmem⟩ := h
  rcases mem_keys_foldl_putValue hmem with hnone | ⟨v, hv⟩
  · cases hnone
  · rintro ⟨rest, rfl⟩
    exact head_seriesValues _ _ hv rfl

end Servitals
