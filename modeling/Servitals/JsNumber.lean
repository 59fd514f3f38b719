import Servitals.JsString

/-!
# Numbers from strings

`Number(s)`: the decimal and the radix literals of the language, with the white space around them, rounded to a
double.  A result that is no finite number is `none`.
-/

namespace Servitals

def isDigit (u : UInt16) : Bool := unitIn '0' '9' u

/-- The number that digits of a base stand for. -/
def digitsValue (base : ℕ) (value : UInt16 → ℕ) (s : JsString) : ℕ := s.foldl (fun n u => base * n + value u) 0

/-- The number that decimal digits stand for. -/
def decimal (s : JsString) : ℕ := digitsValue 10 (fun u => u.toNat - 0x30) s

/-- The number a hexadecimal digit stands for, in either case. -/
def hexValue (u : UInt16) : Option ℕ :=
  if isDigit u then some (u.toNat - 0x30)
  else if unitIn 'a' 'f' u then some (u.toNat - 0x57)
  else if unitIn 'A' 'F' u then some (u.toNat - 0x37)
  else none

/-! ### Rounding -/

/-- The nearest integer, the even one of two. -/
def roundEven (x : ℚ) : ℤ :=
  let f := ⌊x⌋
  if x - f < 1 / 2 then f else if 1 / 2 < x - f then f + 1 else if f % 2 = 0 then f else f + 1

/-- The nearest double, none when it is infinite. -/
def roundDouble (x : ℚ) : Option ℚ :=
  if x = 0 then some 0
  else
    let ulp : ℚ := 2 ^ (max (Int.log 2 |x|) (-1022) - 52)
    let r := roundEven (x / ulp) * ulp
    if |r| < 2 ^ 1024 then some r else none

/-! ### Literals -/

/-- A sign, if there is one, and the rest. -/
def signOf : JsString → ℤ × JsString
  | u :: s => if u = 0x2d then (-1, s) else if u = 0x2b then (1, s) else (1, u :: s)
  | [] => (1, [])

/-- The exponent part: nothing, or `e` and an integer. -/
def exponentOf : JsString → Option ℤ
  | [] => some 0
  | u :: s =>
    if u = 0x65 ∨ u = 0x45 then
      let (sign, ds) := signOf s
      if ds != [] && ds.all isDigit then some (sign * decimal ds) else none
    else none

/-- A decimal literal without a sign: digits, a point and digits, and an exponent. -/
def unsignedDecimal (s : JsString) : Option ℚ :=
  let whole := s.takeWhile isDigit
  let rest := s.dropWhile isDigit
  let fraction := if rest.head? = some 0x2e then (rest.drop 1).takeWhile isDigit else []
  let tail := if rest.head? = some 0x2e then (rest.drop 1).dropWhile isDigit else rest
  if whole == [] && fraction == [] then none
  else (exponentOf tail).map fun (e : ℤ) => (decimal (whole ++ fraction) : ℚ) * 10 ^ (e - (fraction.length : ℤ))

/-- A literal of another base after its prefix: one digit at least, all below the base. -/
def radixLiteral (base : ℕ) (s : JsString) : Option ℚ :=
  let value (u : UInt16) : ℕ := (hexValue u).getD 16
  if s != [] && s.all (fun u => decide (value u < base)) then some (digitsValue base value s) else none

/-- The value of a numeric literal, before rounding. -/
def literal (s : JsString) : Option ℚ :=
  match s with
  | [] => some 0
  | 0x30 :: u :: ds =>
    if u = 0x78 ∨ u = 0x58 then radixLiteral 16 ds
    else if u = 0x6f ∨ u = 0x4f then radixLiteral 8 ds
    else if u = 0x62 ∨ u = 0x42 then radixLiteral 2 ds
    else unsignedDecimal s
  | _ =>
    let (sign, ds) := signOf s
    (unsignedDecimal ds).map fun x => sign * x

/-- `Number(s)`. -/
def jsNumber (s : JsString) : Option ℚ := (literal (trim s)).bind roundDouble

/-! ### Digits -/

private theorem roundDouble_small {n : ℕ} (h : n ≤ 32) : roundDouble n = some (n : ℚ) := by
  have hall : ∀ n ∈ List.range 33, roundDouble n = some (n : ℚ) := by decide +kernel
  exact hall n (List.mem_range.2 (by omega))

theorem isDigit_iff {u : UInt16} : isDigit u = true ↔ 0x30 ≤ u.toNat ∧ u.toNat ≤ 0x39 := unitIn_iff

private theorem isSpace_of_isDigit {u : UInt16} (h : isDigit u = true) : isSpace u = false := by
  have hu := isDigit_iff.1 h
  exact isSpace_eq_false (by omega) (by omega)

theorem unsignedDecimal_digits {s : JsString} (hne : s ≠ []) (hs : s.all isDigit = true) :
    unsignedDecimal s = some (decimal s : ℚ) := by
  have hall : ∀ u ∈ s, isDigit u = true := List.all_eq_true.1 hs
  have htake : s.takeWhile isDigit = s := List.takeWhile_eq_self_iff.2 hall
  have hdrop : s.dropWhile isDigit = [] := List.dropWhile_eq_nil_iff.2 hall
  unfold unsignedDecimal
  simp [htake, hdrop, hne, exponentOf]

/-- Decimal digits are the number they stand for, when that is small. -/
theorem jsNumber_digits {s : JsString} (hne : s ≠ []) (hs : s.all isDigit = true) (hsmall : decimal s ≤ 32) :
    jsNumber s = some (decimal s : ℚ) := by
  have hall : ∀ u ∈ s, isDigit u = true := List.all_eq_true.1 hs
  have htrim : trim s = s := trim_of_all fun u hu => isSpace_of_isDigit (hall u hu)
  have hletter : ∀ u ∈ s, ∀ v : UInt16, isDigit v = false → u ≠ v := by
    rintro u hu v hv rfl
    rw [hall u hu] at hv
    cases hv
  have hliteral : literal s = some (decimal s : ℚ) := by
    unfold literal
    split
    · exact absurd rfl hne
    · rename_i u ds
      have hu := hletter u (by simp)
      rw [if_neg, if_neg, if_neg]
      · exact unsignedDecimal_digits hne hs
      · exact not_or.2 ⟨hu _ rfl, hu _ rfl⟩
      · exact not_or.2 ⟨hu _ rfl, hu _ rfl⟩
      · exact not_or.2 ⟨hu _ rfl, hu _ rfl⟩
    · have hsign : signOf s = (1, s) := by
        cases s with
        | nil => rfl
        | cons u s =>
          have hu := hletter u List.mem_cons_self
          rw [signOf, if_neg (hu _ rfl), if_neg (hu _ rfl)]
      rw [hsign]
      dsimp only
      rw [unsignedDecimal_digits hne hs, Option.map_some, Int.cast_one, one_mul]
  rw [jsNumber, htrim, hliteral, Option.bind_some, roundDouble_small hsmall]

end Servitals
