import Mathlib

/-!
# Base64

Bytes in groups of three, each group as four digits of an alphabet; a group of one or two bytes at the end is filled up
with a padding.  What was written is read back (`decode_encode`).
-/

/-- An alphabet of 64 digits and a padding. -/
structure Base64 (α : Type*) where
  digit : ℕ → α
  value : α → Option ℕ
  pad : α
  value_digit : ∀ n < 64, value (digit n) = some n
  value_pad : value pad = none

namespace Base64

variable {α : Type*} (A : Base64 α)

def encode : List UInt8 → List α
  | a :: b :: c :: bs =>
    A.digit (a.toNat / 4) :: A.digit (a.toNat % 4 * 16 + b.toNat / 16) :: A.digit (b.toNat % 16 * 4 + c.toNat / 64) ::
      A.digit (c.toNat % 64) :: encode bs
  | [a, b] => [A.digit (a.toNat / 4), A.digit (a.toNat % 4 * 16 + b.toNat / 16), A.digit (b.toNat % 16 * 4), A.pad]
  | [a] => [A.digit (a.toNat / 4), A.digit (a.toNat % 4 * 16), A.pad, A.pad]
  | [] => []

/-- The three bytes of four digits. -/
def group (p q r s : α) : Option (List UInt8) :=
  match A.value p, A.value q, A.value r, A.value s with
  | some w, some x, some y, some z =>
    some [.ofNat (w * 4 + x / 16), .ofNat (x % 16 * 16 + y / 4), .ofNat (y % 4 * 64 + z)]
  | _, _, _, _ => none

private theorem digit_ne_pad {n : ℕ} (h : n < 64) : A.digit n ≠ A.pad := by
  intro heq
  have hvalue := A.value_digit n h
  rw [heq, A.value_pad] at hvalue
  cases hvalue

private theorem group_digits {a b c : UInt8} :
    A.group (A.digit (a.toNat / 4)) (A.digit (a.toNat % 4 * 16 + b.toNat / 16))
      (A.digit (b.toNat % 16 * 4 + c.toNat / 64)) (A.digit (c.toNat % 64)) = some [a, b, c] := by
  have ha := a.toNat_lt
  have hb := b.toNat_lt
  have hc := c.toNat_lt
  rw [group, A.value_digit _ (by omega), A.value_digit _ (by omega), A.value_digit _ (by omega),
    A.value_digit _ (by omega)]
  have h1 : a.toNat / 4 * 4 + (a.toNat % 4 * 16 + b.toNat / 16) / 16 = a.toNat := by omega
  have h2 : (a.toNat % 4 * 16 + b.toNat / 16) % 16 * 16 + (b.toNat % 16 * 4 + c.toNat / 64) / 4 = b.toNat := by omega
  have h3 : (b.toNat % 16 * 4 + c.toNat / 64) % 4 * 64 + c.toNat % 64 = c.toNat := by omega
  simp only [h1, h2, h3, UInt8.ofNat_toNat]

theorem encode_eq_nil {bs : List UInt8} : A.encode bs = [] ↔ bs = [] := by
  fun_cases encode A bs <;> simp

theorem length_encode (bs : List UInt8) : (A.encode bs).length = 4 * ((bs.length + 2) / 3) := by
  fun_induction encode A bs with
  | case1 a b c bs ih =>
    simp only [List.length_cons, ih]
    omega
  | case2 a b => simp
  | case3 a => simp
  | case4 => rfl

theorem mem_encode {bs : List UInt8} {x : α} (h : x ∈ A.encode bs) : (∃ n < 64, x = A.digit n) ∨ x = A.pad := by
  fun_induction encode A bs with
  | case1 a b c bs ih =>
    have ha := a.toNat_lt
    have hb := b.toNat_lt
    have hc := c.toNat_lt
    simp only [List.mem_cons] at h
    rcases h with rfl | rfl | rfl | rfl | h
    · exact Or.inl ⟨_, by omega, rfl⟩
    · exact Or.inl ⟨_, by omega, rfl⟩
    · exact Or.inl ⟨_, by omega, rfl⟩
    · exact Or.inl ⟨_, by omega, rfl⟩
    · exact ih h
  | case2 a b =>
    have ha := a.toNat_lt
    have hb := b.toNat_lt
    simp only [List.mem_cons, List.not_mem_nil, or_false] at h
    rcases h with rfl | rfl | rfl | rfl
    · exact Or.inl ⟨_, by omega, rfl⟩
    · exact Or.inl ⟨_, by omega, rfl⟩
    · exact Or.inl ⟨_, by omega, rfl⟩
    · exact Or.inr rfl
  | case3 a =>
    have ha := a.toNat_lt
    simp only [List.mem_cons, List.not_mem_nil, or_false] at h
    rcases h with rfl | rfl | rfl | rfl
    · exact Or.inl ⟨_, by omega, rfl⟩
    · exact Or.inl ⟨_, by omega, rfl⟩
    · exact Or.inr rfl
    · exact Or.inr rfl
  | case4 => cases h

private theorem length_group_le {p q r s : α} {bs : List UInt8} (h : A.group p q r s = some bs) : bs.length ≤ 4 := by
  unfold group at h
  split at h
  · cases h
    simp
  · cases h

/-! ### Reading -/

variable [DecidableEq α]

/-- The bytes of the last group, which may be filled up. -/
def lastGroup (p q r s : α) : Option (List UInt8) :=
  match A.value p, A.value q, A.value r with
  | some w, some x, some y =>
    if s = A.pad then some [.ofNat (w * 4 + x / 16), .ofNat (x % 16 * 16 + y / 4)] else A.group p q r s
  | some w, some x, none => if r = A.pad ∧ s = A.pad then some [.ofNat (w * 4 + x / 16)] else none
  | _, _, _ => none

def decode : List α → Option (List UInt8)
  | p :: q :: r :: s :: cs =>
    if cs = [] then A.lastGroup p q r s
    else (A.group p q r s).bind fun bs => (decode cs).map fun rest => bs ++ rest
  | [] => some []
  | _ => none

private theorem lastGroup_digits {a b c : UInt8} :
    A.lastGroup (A.digit (a.toNat / 4)) (A.digit (a.toNat % 4 * 16 + b.toNat / 16))
      (A.digit (b.toNat % 16 * 4 + c.toNat / 64)) (A.digit (c.toNat % 64)) = some [a, b, c] := by
  have ha := a.toNat_lt
  have hb := b.toNat_lt
  have hc := c.toNat_lt
  rw [lastGroup, A.value_digit _ (by omega), A.value_digit _ (by omega), A.value_digit _ (by omega)]
  dsimp only
  rw [if_neg (A.digit_ne_pad (by omega)), group_digits]

private theorem lastGroup_two {a b : UInt8} :
    A.lastGroup (A.digit (a.toNat / 4)) (A.digit (a.toNat % 4 * 16 + b.toNat / 16)) (A.digit (b.toNat % 16 * 4)) A.pad =
      some [a, b] := by
  have ha := a.toNat_lt
  have hb := b.toNat_lt
  rw [lastGroup, A.value_digit _ (by omega), A.value_digit _ (by omega), A.value_digit _ (by omega)]
  have h1 : a.toNat / 4 * 4 + (a.toNat % 4 * 16 + b.toNat / 16) / 16 = a.toNat := by omega
  have h2 : (a.toNat % 4 * 16 + b.toNat / 16) % 16 * 16 + b.toNat % 16 * 4 / 4 = b.toNat := by omega
  simp only [h1, h2, UInt8.ofNat_toNat, if_true]

private theorem lastGroup_one {a : UInt8} :
    A.lastGroup (A.digit (a.toNat / 4)) (A.digit (a.toNat % 4 * 16)) A.pad A.pad = some [a] := by
  have ha := a.toNat_lt
  rw [lastGroup, A.value_digit _ (by omega), A.value_digit _ (by omega), A.value_pad]
  have h1 : a.toNat / 4 * 4 + a.toNat % 4 * 16 / 16 = a.toNat := by omega
  simp only [h1, UInt8.ofNat_toNat, and_self, if_true]

theorem decode_encode (bs : List UInt8) : A.decode (A.encode bs) = some bs := by
  fun_induction encode A bs with
  | case1 a b c bs ih =>
    rw [decode]
    by_cases hbs : bs = []
    · rw [if_pos ((A.encode_eq_nil).2 hbs), lastGroup_digits, hbs]
    · rw [if_neg (mt (A.encode_eq_nil).1 hbs), group_digits, ih]
      rfl
  | case2 a b => exact A.lastGroup_two
  | case3 a => exact A.lastGroup_one
  | case4 => rfl

private theorem length_lastGroup_le {p q r s : α} {bs : List UInt8} (h : A.lastGroup p q r s = some bs) :
    bs.length ≤ 4 := by
  unfold lastGroup at h
  split at h
  · split at h
    · cases h
      simp
    · exact A.length_group_le h
  · split at h
    · cases h
      simp
    · cases h
  · cases h

/-- The bytes are no more than their digits. -/
theorem length_decode_le {cs : List α} {bs : List UInt8} (h : A.decode cs = some bs) : bs.length ≤ cs.length := by
  fun_induction decode A cs generalizing bs with
  | case1 p q r s =>
    have hlast := A.length_lastGroup_le h
    simpa using hlast
  | case2 p q r s cs hcs ih =>
    obtain ⟨first, hfirst, hrest⟩ := Option.bind_eq_some_iff.1 h
    obtain ⟨rest, hdecode, rfl⟩ := Option.map_eq_some_iff.1 hrest
    have hgroup := A.length_group_le hfirst
    have hmore := ih hdecode
    simp only [List.length_append, List.length_cons]
    omega
  | case3 =>
    cases h
    exact Nat.zero_le _
  | case4 cs => cases h

end Base64
