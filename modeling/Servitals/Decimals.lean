import Servitals.JsNumber
import Servitals.Notify

/-!
# Decimal texts

The text of a number, and the number of a text: what is written is read back.
-/

namespace Servitals

/-- A number's digits are code units of their own. -/
theorem count_eq (n : ℕ) : count n = (Nat.toDigits 10 n).map fun c => UInt16.ofNat c.toNat := by
  have hall : ∀ l : List Char, (∀ c ∈ l, c.isDigit = true) → l.flatMap utf16 = l.map fun c => UInt16.ofNat c.toNat := by
    intro l hl
    induction l with
    | nil => rfl
    | cons c l ih =>
      have hc := hl c List.mem_cons_self
      have hlt : c.toNat < 0x10000 := by
        simp only [Char.isDigit, Bool.and_eq_true, decide_eq_true_eq] at hc
        have h := UInt32.le_iff_toNat_le.1 hc.2
        exact lt_of_le_of_lt h (by decide)
      rw [List.flatMap_cons, ih fun d hd => hl d (List.mem_cons_of_mem c hd), utf16, if_pos hlt]
      rfl
  have hdigits : (toString n).toList = Nat.toDigits 10 n := by simp [toString, Nat.repr]
  rw [count, js, hdigits, hall]
  exact fun c hc => Nat.isDigit_of_mem_toDigits (by decide) (by decide) hc

theorem count_ne_nil (n : ℕ) : count n ≠ [] := by
  rw [count_eq, ne_eq, List.map_eq_nil_iff]
  exact Nat.toDigits_ne_nil

theorem isDigit_of_mem_count {n : ℕ} {u : UInt16} (h : u ∈ count n) : isDigit u = true := by
  rw [count_eq] at h
  obtain ⟨c, hc, rfl⟩ := List.mem_map.1 h
  have hdigit := Nat.isDigit_of_mem_toDigits (b := 10) (by decide) (by decide) hc
  simp only [Char.isDigit, Bool.and_eq_true, decide_eq_true_eq] at hdigit
  have hlo := UInt32.le_iff_toNat_le.1 hdigit.1
  have hhi := UInt32.le_iff_toNat_le.1 hdigit.2
  have hge : 48 ≤ c.toNat := hlo
  have hle : c.toNat ≤ 57 := hhi
  rw [isDigit_iff, UInt16.toNat_ofNat_of_lt' (lt_of_le_of_lt hle (by decide))]
  omega

theorem decimal_concat (s : JsString) (u : UInt16) : decimal (s ++ [u]) = 10 * decimal s + (u.toNat - 0x30) := by
  rw [decimal, digitsValue, List.foldl_append]
  rfl

private theorem digitChar_toNat {d : ℕ} (h : d < 10) : (Nat.digitChar d).toNat = 0x30 + d := by
  have hall : ∀ d < 10, (Nat.digitChar d).toNat = 0x30 + d := by decide
  exact hall d h

/-- A number is read back from its digits. -/
theorem decimal_count (n : ℕ) : decimal (count n) = n := by
  induction n using Nat.strong_induction_on with
  | _ n ih =>
    have hlast : ∀ d < 10, (UInt16.ofNat (Nat.digitChar d).toNat).toNat - 0x30 = d := by
      intro d hd
      rw [digitChar_toNat hd, UInt16.toNat_ofNat_of_lt' (by show _ < 65536; omega)]
      omega
    rw [count_eq]
    by_cases hn : n < 10
    · rw [Nat.toDigits_of_lt_base hn, List.map_singleton, ← List.nil_append [_], decimal_concat, hlast n hn]
      exact Nat.zero_add n
    · have hrec := ih (n / 10) (by omega)
      rw [count_eq] at hrec
      rw [Nat.toDigits_of_base_le (by decide) (by omega), List.map_append, List.map_singleton, decimal_concat, hrec,
        hlast _ (Nat.mod_lt _ (by decide))]
      omega

theorem count_injective : Function.Injective count := by
  intro m n h
  rw [← decimal_count m, h, decimal_count]

private theorem count_of_lt {n : ℕ} (h : n < 10) : count n = [UInt16.ofNat (0x30 + n)] := by
  rw [count_eq, Nat.toDigits_of_lt_base h, List.map_singleton, digitChar_toNat h]

private theorem count_of_le {n : ℕ} (h : 10 ≤ n) : count n = count (n / 10) ++ [UInt16.ofNat (0x30 + n % 10)] := by
  rw [count_eq, count_eq, Nat.toDigits_of_base_le (by decide) h, List.map_append, List.map_singleton,
    digitChar_toNat (Nat.mod_lt _ (by decide))]

private theorem decimal_pos {s : JsString} (hall : ∀ u ∈ s, isDigit u = true) (hne : s ≠ [])
    (hhead : s.head? ≠ some 0x30) :
    0 < decimal s := by
  induction s using List.reverseRecOn with
  | nil => exact absurd rfl hne
  | append_singleton s u ih =>
    have hu := isDigit_iff.1 (hall u (by simp))
    rw [decimal_concat]
    cases s with
    | nil =>
      have hzero : u.toNat ≠ 0x30 := by
        intro h
        refine hhead ?_
        rw [List.nil_append, List.head?_cons, UInt16.toNat_inj.1 (h.trans (by rfl : 0x30 = (0x30 : UInt16).toNat))]
      omega
    | cons v s =>
      have hpos := ih (fun w hw => hall w (List.mem_append_left _ hw)) (List.cons_ne_nil _ _) (by simpa using hhead)
      omega

/-- Digits without a zero in front are the digits of their number. -/
theorem count_decimal {s : JsString} (hall : ∀ u ∈ s, isDigit u = true) (hne : s ≠ []) (hhead : s.length = 1 ∨ s.head? ≠ some 0x30) :
    count (decimal s) = s := by
  induction s using List.reverseRecOn with
  | nil => exact absurd rfl hne
  | append_singleton s u ih =>
    have hu := isDigit_iff.1 (hall u (by simp))
    have hunit : UInt16.ofNat (0x30 + (u.toNat - 0x30)) = u := by
      rw [show 0x30 + (u.toNat - 0x30) = u.toNat by omega, UInt16.ofNat_toNat]
    rw [decimal_concat]
    by_cases hs : s = []
    · rw [hs, show decimal [] = 0 from rfl, count_of_lt (by omega), Nat.mul_zero, Nat.zero_add, hunit, List.nil_append]
    · have hdigits : ∀ w ∈ s, isDigit w = true := fun w hw => hall w (List.mem_append_left _ hw)
      have hlead : s.head? ≠ some 0x30 := by
        have hlen : (s ++ [u]).length ≠ 1 := by
          have := List.length_pos_iff.2 hs
          rw [List.length_append, List.length_singleton]
          omega
        have := hhead.resolve_left hlen
        rwa [List.head?_append_of_ne_nil s hs] at this
      have hpos := decimal_pos hdigits hs hlead
      have hvalue := ih hdigits hs (Or.inr hlead)
      rw [count_of_le (by omega), show (10 * decimal s + (u.toNat - 0x30)) / 10 = decimal s by omega,
        show (10 * decimal s + (u.toNat - 0x30)) % 10 = u.toNat - 0x30 by omega, hvalue, hunit]

end Servitals
