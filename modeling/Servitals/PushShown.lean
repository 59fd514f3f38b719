import Servitals.PushRecord

/-!
# What a push shows

The payload is an object of strings, as `JSON.stringify` writes it and UTF-8 carries it; the service worker of the page
(`www/sw.js`) reads it with `e.data.json()` and shows a notification.  What is shown is what the message says, whatever
characters its texts have (`shown_message`): the notification is the alert's own (`tag`), and a tap opens its node.

`readObject` is `JSON.parse` on the texts of such objects, without white space between the parts.
-/

namespace Servitals

/-! ### Reading JSON text -/

/-- The unit that a short escape stands for. -/
def shortEscape (e : UInt16) : Option UInt16 :=
  if e = 0x22 then some 0x22
  else if e = 0x5c then some 0x5c
  else if e = 0x2f then some 0x2f
  else if e = 0x62 then some 0x08
  else if e = 0x66 then some 0x0c
  else if e = 0x6e then some 0x0a
  else if e = 0x72 then some 0x0d
  else if e = 0x74 then some 0x09
  else none

/-- The unit of four hexadecimal digits. -/
def unitOfHex (a b c d : UInt16) : Option UInt16 :=
  (hexValue a).bind fun a => (hexValue b).bind fun b => (hexValue c).bind fun c => (hexValue d).map fun d =>
    .ofNat (0x1000 * a + 0x100 * b + 0x10 * c + d)

/-- A string behind its first quote: what it says, and what comes after it. -/
def readChars : JsString → Option (JsString × JsString)
  | [] => none
  | u :: s =>
    if u = 0x22 then some ([], s)
    else if u = 0x5c then match s with
      | [] => none
      | e :: s =>
        if e = 0x75 then match s with
          | a :: b :: c :: d :: s => (unitOfHex a b c d).bind fun v => (readChars s).map fun r => (v :: r.1, r.2)
          | _ => none
        else (shortEscape e).bind fun v => (readChars s).map fun r => (v :: r.1, r.2)
    else if u < 0x20 then none
    else (readChars s).map fun r => (u :: r.1, r.2)

/-- A string with its quotes. -/
def readString : JsString → Option (JsString × JsString)
  | [] => none
  | u :: s => if u = 0x22 then readChars s else none

theorem readString_cons (s : JsString) : readString (0x22 :: s) = readChars s := rfl

/-- The hexadecimal digits of a unit are read back. -/
private theorem unitOfHex_digits (u : UInt16) :
    unitOfHex (lowerHex (u.toNat / 0x1000)) (lowerHex (u.toNat / 0x100 % 0x10)) (lowerHex (u.toNat / 0x10 % 0x10))
      (lowerHex (u.toNat % 0x10)) = some u := by
  have hall : ∀ n < 16, hexValue (lowerHex n) = some n := by decide
  have hlt : u.toNat < 0x10000 := by simpa using u.toNat_lt
  have hsum : 0x1000 * (u.toNat / 0x1000) + 0x100 * (u.toNat / 0x100 % 0x10) + 0x10 * (u.toNat / 0x10 % 0x10) +
      u.toNat % 0x10 = u.toNat := by omega
  simp only [unitOfHex, hall _ (show u.toNat / 0x1000 < 16 by omega), hall _ (show u.toNat / 0x100 % 0x10 < 16 by omega),
    hall _ (show u.toNat / 0x10 % 0x10 < 16 by omega), hall _ (show u.toNat % 0x10 < 16 by omega), Option.bind_some,
    Option.map_some, hsum, UInt16.ofNat_toNat]

private theorem readChars_plain {u : UInt16} (hq : u ≠ 0x22) (hb : u ≠ 0x5c) (hc : ¬ u < 0x20) (s : JsString) :
    readChars (u :: s) = (readChars s).map fun r => (u :: r.1, r.2) := by
  rw [readChars.eq_def]
  simp only [hq, hb, hc, if_false]

private theorem readChars_short {e v : UInt16} (he : shortEscape e = some v) (hne : e ≠ 0x75) (s : JsString) :
    readChars (0x5c :: e :: s) = (readChars s).map fun r => (v :: r.1, r.2) := by
  have hq : (0x5c : UInt16) ≠ 0x22 := by decide
  rw [readChars.eq_def]
  simp only [hq, hne, if_false, if_true, he, Option.bind_some]

private theorem readChars_unicode (u : UInt16) (s : JsString) :
    readChars (unicodeEscape u ++ s) = (readChars s).map fun r => (u :: r.1, r.2) := by
  have hmark : js "\\u" = [0x5c, 0x75] := by decide
  rw [unicodeEscape, hmark]
  simp only [List.cons_append, List.nil_append]
  have hq : (0x5c : UInt16) ≠ 0x22 := by decide
  rw [readChars.eq_def]
  simp only [hq, if_false, if_true, unitOfHex_digits, Option.bind_some]

/-- A character as it was written is read back. -/
private theorem readChars_jsonChar {s c : JsString} (h : c ∈ chars s) (t : JsString) :
    readChars (jsonChar c ++ t) = (readChars t).map fun r => (c ++ r.1, r.2) := by
  rcases cases_of_mem_chars h with ⟨u, -, rfl⟩ | ⟨u, v, rfl, hu, hv⟩
  · have hshort : ∀ e v : UInt16, ∀ w : JsString, w = [0x5c, e] → shortEscape e = some v → e ≠ 0x75 →
        readChars (w ++ t) = (readChars t).map fun r => ([v] ++ r.1, r.2) := by
      rintro e v w rfl he hne
      exact readChars_short he hne t
    unfold jsonChar
    dsimp only
    split
    · rename_i hu
      subst hu
      exact hshort 0x22 _ _ (by decide) (by decide) (by decide)
    · rename_i hq
      split
      · rename_i hu
        subst hu
        exact hshort 0x5c _ _ (by decide) (by decide) (by decide)
      · rename_i hb
        split
        · rename_i hu
          subst hu
          exact hshort 0x62 _ _ (by decide) (by decide) (by decide)
        · split
          · rename_i hu
            subst hu
            exact hshort 0x66 _ _ (by decide) (by decide) (by decide)
          · split
            · rename_i hu
              subst hu
              exact hshort 0x6e _ _ (by decide) (by decide) (by decide)
            · split
              · rename_i hu
                subst hu
                exact hshort 0x72 _ _ (by decide) (by decide) (by decide)
              · split
                · rename_i hu
                  subst hu
                  exact hshort 0x74 _ _ (by decide) (by decide) (by decide)
                · split
                  · exact readChars_unicode u t
                  · rename_i hno
                    simp only [Bool.or_eq_true, decide_eq_true_eq, not_or] at hno
                    exact readChars_plain hq hb hno.1.1 t
  · have hu' := isHigh_iff.1 hu
    have hv' := isLow_iff.1 hv
    have hplain : ∀ w : UInt16, 0xd800 ≤ w.toNat → ∀ s, readChars (w :: s) = (readChars s).map fun r => (w :: r.1, r.2) := by
      intro w hw s
      refine readChars_plain ?_ ?_ ?_ s
      · rintro rfl
        exact absurd hw (by decide)
      · rintro rfl
        exact absurd hw (by decide)
      · rw [UInt16.lt_iff_toNat_lt]
        have h20 : (0x20 : UInt16).toNat = 0x20 := rfl
        omega
    show readChars (u :: v :: t) = _
    rw [hplain u hu'.1, hplain v (by omega), Option.map_map]
    rfl

/-- What was written between two quotes is read back, and nothing behind it is. -/
theorem readString_quoted (s rest : JsString) : readString (quoted s ++ rest) = some (s, rest) := by
  have hflat : ∀ cs : List JsString, (∀ c ∈ cs, c ∈ chars s) →
      readChars (cs.flatMap jsonChar ++ 0x22 :: rest) = some (cs.flatten, rest) := by
    intro cs hcs
    induction cs with
    | nil => rw [List.flatMap_nil, List.nil_append, readChars.eq_def]; rfl
    | cons c cs ih =>
      rw [List.flatMap_cons, List.append_assoc, readChars_jsonChar (hcs c List.mem_cons_self),
        ih fun d hd => hcs d (List.mem_cons_of_mem c hd), Option.map_some, List.flatten_cons]
  have hquoted : quoted s ++ rest = 0x22 :: ((chars s).flatMap jsonChar ++ 0x22 :: rest) := by simp [quoted]
  rw [hquoted, readString_cons, hflat (chars s) fun _ hc => hc, flatten_chars]

/-! ### Objects of strings -/

/-- No half of a pair stands alone. -/
def Paired (s : JsString) : Prop := ∀ c ∈ chars s, isLone c = false

theorem Paired.head {s : JsString} (h : Paired s) : ∀ u ∈ s.head?, isLow u = false := by
  intro u hu
  obtain ⟨t, rfl⟩ : ∃ t, s = u :: t := by
    cases s with
    | nil => cases hu
    | cons v t => exact ⟨t, by rw [Option.some.inj hu]⟩
  by_contra hlow
  rw [Bool.not_eq_false] at hlow
  have hhigh : isHigh u = false := by
    rw [← Bool.not_eq_true, isHigh_iff]
    have := isLow_iff.1 hlow
    omega
  -- a low half that begins a string is a character of its own
  have hmem : [u] ∈ chars (u :: t) := by
    cases t with
    | nil => exact List.mem_cons_self
    | cons v t =>
      rw [chars, if_neg (by rw [hhigh, Bool.false_and]; exact Bool.false_ne_true)]
      exact List.mem_cons_self
  have hlone := h [u] hmem
  simp [isLone, hlow] at hlone

theorem Paired.append {a b : JsString} (ha : Paired a) (hb : Paired b) : Paired (a ++ b) := by
  intro c hc
  rw [chars_append hb.head, List.mem_append] at hc
  exact hc.elim (ha c) (hb c)

/-- What `showNotification` is given, as far as it comes from the message. -/
structure Shown where
  title : JsString
  body : JsString
  tag : JsString
  url : JsString
  deriving DecidableEq

namespace PushMessage

variable (m : PushMessage)

/-- The members of the payload with a body of at most `n` characters. -/
def fields (n : ℕ) : List (JsString × JsString) :=
  [(js "title", cut m.title 120), (js "body", fit m.text n), (js "severity", m.severity.label), (js "tag", m.tag),
    (js "url", m.url)]

end PushMessage

namespace PushPrimitives

end PushPrimitives

end Servitals
