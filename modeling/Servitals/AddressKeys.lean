import Servitals.Decimals
import Servitals.Link
import Servitals.NetIp

/-!
# The keys of the link limits

`addressKey` of `src/hub/lib/link.js` gives an IPv4 address its dotted text and an IPv6 address the text of its /64.  It
fills the `::` by the number of fields around it.  The key of an IPv4 address in an IPv6 one is that of the IPv4 address
only in the spelling `::ffff:1.2.3.4`, and a dotted end or a zone with colons can shift the fields: `wellKeyed` is exactly
where the key is that of the host (`wellKeyed_iff`).
-/

namespace Servitals

/-- What a limit is meant to count by: an IPv4 address, or the /64 of an IPv6 address. -/
inductive HostNet
  | v4 (n : ℕ)
  | v6 (gs : List ℕ)
  deriving DecidableEq

/-- An IPv4 address in the groups of an IPv6 address. -/
def isMapped (gs : List ℕ) : Bool := gs.take 6 == [0, 0, 0, 0, 0, 0xffff]

def netOf (gs : List ℕ) : HostNet := if isMapped gs then .v4 (gs.getD 6 0 * 65536 + gs.getD 7 0) else .v6 (gs.take 4)

def hostNet (s : JsString) : Option HostNet := ((v4Value s).map .v4).or ((v6Value s).map fun p => netOf p.1)

/-- A text that `net.isIP` accepts. -/
def IpText := { s : JsString // isIP s = true }

/-- The fields after the first `::`, up to the next one. -/
def fieldsAfter (s : JsString) : List JsString := fields ((splitDouble s).tail.headD [])

/-- A dotted address, with `::ffff:` before it or nothing. -/
def isPlain (s : JsString) : Bool := isIPv4 s || (js "::ffff:").isPrefixOf (lower s) && isIPv4 (s.drop 7)

/-- After the `::` are as many fields as groups, or the fields that come among the first four are zeros. -/
def wellCounted (s : JsString) : Bool :=
  match doubleColon (s.takeWhile (· != 0x25)) with
  | none => true
  | some (a, b) =>
    let after := fieldsAfter s
    let count := ((groups true (fields b)).getD []).length
    after.length == count ||
      (after.take (4 - max (fields a).length (8 - max after.length count))).all fun f => hexGroup f == some 0

/-- The spellings of which the key is that of the host. -/
def wellKeyed (s : JsString) : Bool :=
  isPlain s || (v6Value s).any (fun p => !isMapped p.1) && wellCounted s

/-! ### Groups as texts -/

/-- A hexadecimal digit in lower case. -/
def hexUnit (d : ℕ) : UInt16 := UInt16.ofNat (if d < 10 then 0x30 + d else 0x57 + d)

/-- A group as four digits. -/
def hex4 (g : ℕ) : JsString := [hexUnit (g / 4096 % 16), hexUnit (g / 256 % 16), hexUnit (g / 16 % 16), hexUnit (g % 16)]

/-- The text of a group in a key. -/
def groupKey (g : ℕ) : JsString := dropZeros (hex4 g)

private theorem hexUnit_lt {d : ℕ} (h : d < 16) :
    hexValue (hexUnit d) = some d ∧ lowerUnit (hexUnit d) = hexUnit d ∧ hexUnit d ≠ 0x3a ∧
    hexUnit d ≠ 0x0a ∧ hexUnit d ≠ 0x0d ∧ hexUnit d ≠ 0x2028 ∧ hexUnit d ≠ 0x2029 := by
  have hall : ∀ d < 16, hexValue (hexUnit d) = some d ∧ lowerUnit (hexUnit d) = hexUnit d ∧ hexUnit d ≠ 0x3a ∧
      hexUnit d ≠ 0x0a ∧ hexUnit d ≠ 0x0d ∧ hexUnit d ≠ 0x2028 ∧ hexUnit d ≠ 0x2029 := by decide +kernel
  exact hall d h

private theorem lowerUnit_of_hexValue {u : UInt16} {d : ℕ} (h : hexValue u = some d) :
    lowerUnit u = hexUnit d ∧ d < 16 := by
  have hto : ∀ n < 0x100, (UInt16.ofNat n).toNat = n := fun n hn => UInt16.toNat_ofNat_of_lt' (lt_trans hn (by decide))
  unfold hexValue at h
  split at h
  · rename_i hu
    rw [isDigit_iff] at hu
    have hd : d = u.toNat - 0x30 := (Option.some.inj h).symm
    refine ⟨?_, by omega⟩
    rw [lowerUnit_eq_self (by omega), hexUnit, if_pos (by omega), ← UInt16.toNat_inj, hto _ (by omega)]
    omega
  · split at h
    · rename_i hu
      rw [unitIn_iff, show 'a'.toNat = 0x61 from rfl, show 'f'.toNat = 0x66 from rfl] at hu
      have hd : d = u.toNat - 0x57 := (Option.some.inj h).symm
      refine ⟨?_, by omega⟩
      rw [lowerUnit_eq_self (by omega), hexUnit, if_neg (by omega), ← UInt16.toNat_inj, hto _ (by omega)]
      omega
    · split at h
      · rename_i hu
        rw [unitIn_iff, show 'A'.toNat = 0x41 from rfl, show 'F'.toNat = 0x46 from rfl] at hu
        have hd : d = u.toNat - 0x37 := (Option.some.inj h).symm
        refine ⟨?_, by omega⟩
        rw [hexUnit, if_neg (by omega), ← UInt16.toNat_inj, toNat_lowerUnit, if_pos (by omega), hto _ (by omega)]
        omega
      · cases h

/-- A field of a group is one to four digits. -/
private theorem digits_of_hexGroup {f : JsString} {g : ℕ} (h : hexGroup f = some g) :
    ∃ ds : List ℕ, lower f = ds.map hexUnit ∧ (∀ d ∈ ds, d < 16) ∧ 1 ≤ ds.length ∧ ds.length ≤ 4 ∧
      g = ds.foldl (fun n d => 16 * n + d) 0 := by
  unfold hexGroup at h
  split at h
  · rename_i hf
    simp only [Bool.and_eq_true, bne_iff_ne, decide_eq_true_eq, List.all_eq_true] at hf
    obtain ⟨⟨hne, hlen⟩, hall⟩ := hf
    have hdigit : ∀ u ∈ f, lowerUnit u = hexUnit ((hexValue u).getD 0) ∧ (hexValue u).getD 0 < 16 := by
      intro u hu
      obtain ⟨d, hd⟩ := Option.isSome_iff_exists.1 (hall u hu)
      rw [hd]
      exact lowerUnit_of_hexValue hd
    refine ⟨f.map fun u => (hexValue u).getD 0, ?_, ?_, ?_, ?_, ?_⟩
    · rw [List.map_map]
      exact List.map_congr_left fun u hu => (hdigit u hu).1
    · intro d hd
      obtain ⟨u, hu, rfl⟩ := List.mem_map.1 hd
      exact (hdigit u hu).2
    · rw [List.length_map]
      exact List.length_pos_iff.2 hne
    · rw [List.length_map]
      exact hlen
    · rw [List.foldl_map]
      exact (Option.some.inj h).symm
  · cases h

/-- A zero before another digit is dropped. -/
private theorem dropZeros_zero {d : ℕ} (h : d < 16) (s : JsString) :
    dropZeros (hexUnit 0 :: hexUnit d :: s) = dropZeros (hexUnit d :: s) := by
  obtain ⟨-, -, -, hnl, hcr, hls, hps⟩ := hexUnit_lt h
  rw [dropZeros, if_pos ⟨rfl, hnl, hcr, hls, hps⟩]

private theorem hex4_digits {a b c d : ℕ} (ha : a < 16) (hb : b < 16) (hc : c < 16) (hd : d < 16) :
    hex4 (16 * (16 * (16 * a + b) + c) + d) = [hexUnit a, hexUnit b, hexUnit c, hexUnit d] := by
  unfold hex4
  rw [show (16 * (16 * (16 * a + b) + c) + d) / 4096 % 16 = a by omega,
    show (16 * (16 * (16 * a + b) + c) + d) / 256 % 16 = b by omega,
    show (16 * (16 * (16 * a + b) + c) + d) / 16 % 16 = c by omega,
    show (16 * (16 * (16 * a + b) + c) + d) % 16 = d by omega]

/-- A group has one text in keys, however it is written. -/
private theorem dropZeros_lower {f : JsString} {g : ℕ} (h : hexGroup f = some g) :
    dropZeros (lower f) = groupKey g := by
  obtain ⟨ds, hf, hall, hpos, hlen, hg⟩ := digits_of_hexGroup h
  have h0 : 0 < 16 := by decide
  rw [hf, groupKey, hg]
  match ds, hpos, hlen with
  | [a], _, _ =>
    have ha : a < 16 := hall a (by simp)
    rw [show [a].foldl (fun n d => 16 * n + d) 0 = 16 * (16 * (16 * 0 + 0) + 0) + a from rfl, hex4_digits h0 h0 h0 ha,
      dropZeros_zero h0, dropZeros_zero h0, dropZeros_zero ha]
    rfl
  | [a, b], _, _ =>
    have ha : a < 16 := hall a (by simp)
    have hb : b < 16 := hall b (by simp)
    rw [show [a, b].foldl (fun n d => 16 * n + d) 0 = 16 * (16 * (16 * 0 + 0) + a) + b from rfl, hex4_digits h0 h0 ha hb,
      dropZeros_zero h0, dropZeros_zero ha]
    rfl
  | [a, b, c], _, _ =>
    have ha : a < 16 := hall a (by simp)
    have hb : b < 16 := hall b (by simp)
    have hc : c < 16 := hall c (by simp)
    rw [show [a, b, c].foldl (fun n d => 16 * n + d) 0 = 16 * (16 * (16 * 0 + a) + b) + c from rfl, hex4_digits h0 ha hb hc,
      dropZeros_zero ha]
    rfl
  | [a, b, c, d], _, _ =>
    have ha : a < 16 := hall a (by simp)
    have hb : b < 16 := hall b (by simp)
    have hc : c < 16 := hall c (by simp)
    have hd : d < 16 := hall d (by simp)
    have hvalue : [a, b, c, d].foldl (fun n d => 16 * n + d) 0 = 16 * (16 * (16 * a + b) + c) + d := by
      simp only [List.foldl_cons, List.foldl_nil, Nat.mul_zero, Nat.zero_add]
    rw [hvalue, hex4_digits ha hb hc hd]
    rfl

private theorem hexGroup_digits {ds : List ℕ} (hall : ∀ d ∈ ds, d < 16) (hne : ds ≠ []) (hlen : ds.length ≤ 4) :
    hexGroup (ds.map hexUnit) = some (ds.foldl (fun n d => 16 * n + d) 0) := by
  have hhex : (ds.map hexUnit).all (fun u => (hexValue u).isSome) = true := by
    rw [List.all_map, List.all_eq_true]
    intro d hd
    rw [Function.comp_apply, (hexUnit_lt (hall d hd)).1]
    rfl
  have hvalue : digitsValue 16 (fun u => (hexValue u).getD 0) (ds.map hexUnit) = ds.foldl (fun n d => 16 * n + d) 0 := by
    rw [digitsValue, List.foldl_map]
    refine List.foldl_ext _ _ _ fun n d hd => ?_
    rw [(hexUnit_lt (hall d hd)).1]
    rfl
  rw [hexGroup, if_pos, hvalue]
  rw [hhex, List.length_map]
  simp [hne, hlen]

private theorem hexGroup_hex4 {g : ℕ} (h : g < 65536) : hexGroup (hex4 g) = some g := by
  rw [show hex4 g = [g / 4096 % 16, g / 256 % 16, g / 16 % 16, g % 16].map hexUnit from rfl,
    hexGroup_digits (by simp; omega) (List.cons_ne_nil _ _) le_rfl]
  simp only [List.foldl_cons, List.foldl_nil, Option.some.injEq]
  omega

/-- Dropped zeros do not count. -/
private theorem hexGroup_dropZeros {f : JsString} {g : ℕ} (h : hexGroup f = some g) :
    hexGroup (dropZeros f) = some g := by
  induction f using List.twoStepInduction with
  | nil => exact h
  | singleton u => exact h
  | cons_cons u v s _ ih =>
    rw [dropZeros]
    split
    · rename_i hu
      refine ih v ?_
      unfold hexGroup at h ⊢
      split at h
      · rename_i hf
        simp only [Bool.and_eq_true, bne_iff_ne, decide_eq_true_eq, List.all_cons, List.length_cons] at hf
        rw [if_pos, ← h, hu.1]
        · rfl
        · simp only [Bool.and_eq_true, bne_iff_ne, decide_eq_true_eq, List.all_cons, List.length_cons]
          exact ⟨⟨List.cons_ne_nil _ _, by omega⟩, hf.2.2⟩
      · cases h
    · exact h

private theorem groupKey_injective {g g' : ℕ} (hg : g < 65536) (hg' : g' < 65536) (h : groupKey g = groupKey g') :
    g = g' := by
  have hkey := hexGroup_dropZeros (hexGroup_hex4 hg)
  have hkey' := hexGroup_dropZeros (hexGroup_hex4 hg')
  rw [show dropZeros (hex4 g) = dropZeros (hex4 g') from h, hkey'] at hkey
  exact (Option.some.inj hkey).symm

private theorem mem_dropZeros {u : UInt16} (hu : u ≠ 0x30) {f : JsString} (h : u ∈ f) : u ∈ dropZeros f := by
  induction f using List.twoStepInduction with
  | nil => exact h
  | singleton v => exact h
  | cons_cons v w s _ ih =>
    rw [dropZeros]
    split
    · rename_i hv
      refine ih w ((List.mem_cons.1 h).resolve_left ?_)
      rw [hv.1]
      exact hu
    · exact h

private theorem dropZeros_sublist (f : JsString) : (dropZeros f).Sublist f := by
  induction f using List.twoStepInduction with
  | nil => exact .refl _
  | singleton v => exact .refl _
  | cons_cons v w s _ ih =>
    rw [dropZeros]
    split
    · exact (ih w).trans (List.sublist_cons_self _ _)
    · exact .refl _

private theorem mem_groupKey {g : ℕ} {u : UInt16} (h : u ∈ groupKey g) : ∃ d < 16, u = hexUnit d := by
  have hmem := (dropZeros_sublist _).subset h
  simp only [hex4, List.mem_cons, List.not_mem_nil, or_false] at hmem
  rcases hmem with h | h | h | h <;> exact ⟨_, Nat.mod_lt _ (by decide), h⟩

/-- A field with a `%` or a point is the text of no group. -/
private theorem dropZeros_ne_groupKey {f : JsString} (h : (0x25 : UInt16) ∈ f ∨ (0x2e : UInt16) ∈ f) (g : ℕ) :
    dropZeros f ≠ groupKey g := by
  have hall : ∀ d < 16, hexUnit d ≠ 0x25 ∧ hexUnit d ≠ 0x2e := by decide +kernel
  intro heq
  rcases h with h | h
  · obtain ⟨d, hd, hu⟩ := mem_groupKey (heq ▸ mem_dropZeros (by decide) h)
    exact (hall d hd).1 hu.symm
  · obtain ⟨d, hd, hu⟩ := mem_groupKey (heq ▸ mem_dropZeros (by decide) h)
    exact (hall d hd).2 hu.symm

/-! ### Filling the `::` -/

section Filled
variable {α : Type*} {z : α} {xs cs us ws : List α}

/-- Eight or more, with the zeros that are missing between the two lists. -/
def filled (z : α) (xs ys : List α) : List α := xs ++ List.replicate (8 - xs.length - ys.length) z ++ ys

private theorem getElem?_filled (xs ys : List α) (i : ℕ) :
    (filled z xs ys)[i]? = if i < xs.length then xs[i]? else
      if i < max xs.length (8 - ys.length) then some z else ys[i - max xs.length (8 - ys.length)]? := by
  have hlen : xs.length + (8 - xs.length - ys.length) = max xs.length (8 - ys.length) := by omega
  rw [filled, List.append_assoc]
  by_cases hx : i < xs.length
  · rw [if_pos hx, List.getElem?_append_left hx]
  · rw [if_neg hx, List.getElem?_append_right (by omega)]
    by_cases hz : i < max xs.length (8 - ys.length)
    · rw [if_pos hz, List.getElem?_append_left (by rw [List.length_replicate]; omega), List.getElem?_replicate, if_pos (by omega)]
    · rw [if_neg hz, List.getElem?_append_right (by rw [List.length_replicate]; omega), List.length_replicate]
      congr 1
      omega

/-- Of two lists that begin alike one begins later, after zeros: they agree up to the fourth place where both have zeros. -/
private theorem shifted_iff {lo hi : ℕ} (hlt : lo < hi) (hus : ∀ j < cs.length, us[j]? = cs[j]?)
    (hws : ∀ j < cs.length, ws[j]? = cs[j]?)
    (hbad : us[cs.length]? ≠ some z ∨ 4 - lo ≤ cs.length) :
    (∀ i < 4, lo ≤ i → us[i - lo]? = if i < hi then some z else ws[i - hi]?) ↔
      4 - lo ≤ cs.length ∧ ∀ y ∈ cs.take (4 - lo), y = z := by
  constructor
  · intro heq
    have hzero : ∀ j, j < 4 - lo → j < cs.length ∧ us[j]? = some z := by
      intro j
      induction j using Nat.strong_induction_on with
      | _ j ih =>
        intro hj
        have hplace := heq (lo + j) (by omega) (by omega)
        rw [Nat.add_sub_cancel_left] at hplace
        have hz : us[j]? = some z := by
          by_cases hhi : lo + j < hi
          · rwa [if_pos hhi] at hplace
          · obtain ⟨hlt', hz⟩ := ih (lo + j - hi) (by omega) (by omega)
            rw [if_neg hhi, hws _ hlt', ← hus _ hlt', hz] at hplace
            exact hplace
        refine ⟨?_, hz⟩
        by_contra hge
        rcases hbad with hbad | hbad
        · rcases Nat.lt_or_ge cs.length j with hcs | hcs
          · exact absurd (ih cs.length hcs (by omega)).1 (lt_irrefl _)
          · exact hbad (by rwa [show cs.length = j by omega])
        · omega
    refine ⟨?_, fun y hy => ?_⟩
    · by_contra hle
      exact absurd (hzero cs.length (by omega)).1 (lt_irrefl _)
    · obtain ⟨j, hj, rfl⟩ := List.mem_take_iff_getElem.1 hy
      obtain ⟨hlt', hz⟩ := hzero j (by omega)
      rw [hus j hlt', List.getElem?_eq_getElem hlt'] at hz
      exact Option.some.inj hz
  · rintro ⟨hlen, hall⟩ i hi4 hlo
    have hz : ∀ j < 4 - lo, cs[j]? = some z := by
      intro j hj
      have hlt' : j < cs.length := by omega
      rw [List.getElem?_eq_getElem hlt', hall _ (List.mem_take_iff_getElem.2 ⟨j, by omega, rfl⟩)]
    rw [hus _ (by omega), hz _ (by omega)]
    by_cases hhi : i < hi
    · rw [if_pos hhi]
    · rw [if_neg hhi, hws _ (by omega), hz _ (by omega)]

private theorem take_filled_eq_iff (hus : ∀ j < cs.length, us[j]? = cs[j]?) (hws : ∀ j < cs.length, ws[j]? = cs[j]?)
    (hx : xs.length + ws.length ≤ 7) (hlen : ws.length ≤ cs.length + 2)
    (hbad : us.length = ws.length ∨ us[cs.length]? ≠ some z) :
    (filled z xs us).take 4 = (filled z xs ws).take 4 ↔ us.length = ws.length ∨
      4 - max xs.length (8 - max us.length ws.length) ≤ cs.length ∧
        ∀ y ∈ cs.take (4 - max xs.length (8 - max us.length ws.length)), y = z := by
  have htake : (filled z xs us).take 4 = (filled z xs ws).take 4 ↔
      ∀ i < 4, xs.length ≤ i → (if i < max xs.length (8 - us.length) then some z else us[i - max xs.length (8 - us.length)]?) =
        if i < max xs.length (8 - ws.length) then some z else ws[i - max xs.length (8 - ws.length)]? := by
    constructor
    · intro heq i hi hxi
      have hget := congrArg (fun l : List α => l[i]?) heq
      simpa only [List.getElem?_take_of_lt hi, getElem?_filled, if_neg (not_lt.2 hxi)] using hget
    · intro heq
      refine List.ext_getElem? fun i => ?_
      rcases Nat.lt_or_ge i 4 with hi | hi
      · rw [List.getElem?_take_of_lt hi, List.getElem?_take_of_lt hi, getElem?_filled, getElem?_filled]
        by_cases hxi : i < xs.length
        · rw [if_pos hxi, if_pos hxi]
        · rw [if_neg hxi, if_neg hxi, heq i hi (not_lt.1 hxi)]
      · rw [List.getElem?_take_eq_none hi, List.getElem?_take_eq_none hi]
  rw [htake]
  have hfrom : ∀ {lo hi : ℕ} {vs vs' : List α}, xs.length ≤ lo → lo < hi →
      ((∀ i < 4, xs.length ≤ i → (if i < lo then some z else vs[i - lo]?) = if i < hi then some z else vs'[i - hi]?) ↔
        ∀ i < 4, lo ≤ i → vs[i - lo]? = if i < hi then some z else vs'[i - hi]?) := by
    intro lo hi vs vs' hxlo hlohi
    refine ⟨fun h i hi hloi => ?_, fun h i hi hxi => ?_⟩
    · rw [← h i hi (by omega), if_neg (by omega)]
    · by_cases hloi : lo ≤ i
      · rw [if_neg (by omega), h i hi hloi]
      · rw [if_pos (by omega), if_pos (by omega)]
  rcases Nat.lt_trichotomy us.length ws.length with hlt | heq | hgt
  · -- the groups begin before the fields
    have hlo : max xs.length (8 - max us.length ws.length) = max xs.length (8 - ws.length) := by omega
    have hsymm : ∀ {p q : ℕ → Option α}, (∀ i < 4, xs.length ≤ i → p i = q i) ↔ ∀ i < 4, xs.length ≤ i → q i = p i :=
      ⟨fun h i hi hxi => (h i hi hxi).symm, fun h i hi hxi => (h i hi hxi).symm⟩
    rw [hlo, hsymm, hfrom (le_max_left _ _) (by omega), shifted_iff (by omega) hws hus (Or.inr (by omega)),
      or_iff_right hlt.ne]
  · refine iff_of_true (fun i hi hxi => ?_) (Or.inl heq)
    rw [heq]
    by_cases hz : i < max xs.length (8 - ws.length)
    · rw [if_pos hz, if_pos hz]
    · rw [if_neg hz, if_neg hz, hus _ (by omega), hws _ (by omega)]
  · -- the fields begin before the groups
    have hlo : max xs.length (8 - max us.length ws.length) = max xs.length (8 - us.length) := by omega
    rw [hlo, hfrom (le_max_left _ _) (by omega), shifted_iff (by omega) hus hws (Or.inl (hbad.resolve_left hgt.ne')),
      or_iff_right hgt.ne']

end Filled

/-! ### Dotted addresses -/

/-- The text of an IPv4 address. -/
def dotted (n : ℕ) : JsString :=
  [0x2e].intercalate [count (n / 16777216), count (n / 65536 % 256), count (n / 256 % 256), count (n % 256)]

private theorem count_of_octet {p : JsString} {n : ℕ} (h : octet p = some n) : count n = p := by
  unfold octet at h
  split at h
  · rename_i hp
    simp only [Bool.and_eq_true, bne_iff_ne, Bool.or_eq_true, beq_iff_eq, decide_eq_true_eq] at hp
    rw [← Option.some.inj h]
    exact count_decimal (List.all_eq_true.1 hp.1.1.2) hp.1.1.1.1 hp.1.2
  · cases h

private theorem octet_count {n : ℕ} (h : n < 256) : octet (count n) = some n := by
  have hall : ∀ n < 256, octet (count n) = some n := by decide +kernel
  exact hall n h

private theorem parts_of_v4Value {s : JsString} {n : ℕ} (h : v4Value s = some n) :
    ∃ a b c d, split 0x2e s = [count a, count b, count c, count d] ∧ (a ≤ 255 ∧ b ≤ 255 ∧ c ≤ 255 ∧ d ≤ 255) ∧
      n = ((a * 256 + b) * 256 + c) * 256 + d := by
  obtain ⟨a, b, c, d, hparts, hn⟩ := octets_of_v4Value h
  have hle : ∀ m, some m ∈ (split 0x2e s).map octet → m ≤ 255 := fun m hm => octet_le hm
  have hsplit : ((split 0x2e s).map octet).map (fun o => count (o.getD 0)) = split 0x2e s := by
    rw [List.map_map]
    refine (List.map_congr_left fun p hp => ?_).trans (List.map_id _)
    obtain ⟨m, hm⟩ := octet_of_mem h hp
    rw [Function.comp_apply, hm]
    exact count_of_octet hm
  rw [hparts] at hle hsplit
  exact ⟨a, b, c, d, hsplit.symm, ⟨hle a (by simp), hle b (by simp), hle c (by simp), hle d (by simp)⟩, hn⟩

/-- An IPv4 address has one text. -/
private theorem dotted_of_v4Value {s : JsString} {n : ℕ} (h : v4Value s = some n) : dotted n = s := by
  obtain ⟨a, b, c, d, hsplit, hle, rfl⟩ := parts_of_v4Value h
  rw [dotted, ← intercalate_split 0x2e s, hsplit]
  rw [show (((a * 256 + b) * 256 + c) * 256 + d) / 16777216 = a by omega,
    show (((a * 256 + b) * 256 + c) * 256 + d) / 65536 % 256 = b by omega,
    show (((a * 256 + b) * 256 + c) * 256 + d) / 256 % 256 = c by omega,
    show (((a * 256 + b) * 256 + c) * 256 + d) % 256 = d by omega]

private theorem v4Value_dotted {n : ℕ} (h : n < 2 ^ 32) : v4Value (dotted n) = some n := by
  have hpoint : ∀ m, (0x2e : UInt16) ∉ count m := fun m hm => absurd (isDigit_of_mem_count hm) (by decide)
  rw [v4Value, dotted, split_intercalate (List.cons_ne_nil _ _)]
  · simp only [List.map_cons, List.map_nil]
    rw [octet_count (by omega), octet_count (by omega), octet_count (by omega), octet_count (by omega)]
    dsimp only
    congr 1
    omega
  · intro w hw
    simp only [List.mem_cons, List.not_mem_nil, or_false] at hw
    rcases hw with rfl | rfl | rfl | rfl <;> exact hpoint _

/-- A dotted text is an IPv4 address when its parts are octets. -/
private theorem isDotted_of_isIPv4 {s : JsString} (h : isIPv4 s = true) : isDotted s = true := by
  obtain ⟨n, hn⟩ := Option.isSome_iff_exists.1 h
  obtain ⟨a, b, c, d, hsplit, -, -⟩ := parts_of_v4Value hn
  have hall : (split 0x2e s).all (fun p => p.length != 0 && p.length ≤ 3 && p.all isDigit) = true := by
    rw [List.all_eq_true]
    intro p hp
    obtain ⟨m, hm⟩ := octet_of_mem hn hp
    unfold octet at hm
    split at hm
    · rename_i hoct
      simp only [Bool.and_eq_true, bne_iff_ne, Bool.or_eq_true, beq_iff_eq, decide_eq_true_eq] at hoct ⊢
      exact ⟨⟨List.length_eq_zero_iff.not.2 hoct.1.1.1.1, hoct.1.1.1.2⟩, hoct.1.1.2⟩
    · cases hm
  rw [isDotted, hall, hsplit]
  rfl

private theorem mem_of_isDotted {s : JsString} (h : isDotted s = true) {u : UInt16} (hu : u ∈ s) :
    isDigit u = true ∨ u = 0x2e := by
  rw [isDotted, Bool.and_eq_true, List.all_eq_true] at h
  rcases mem_split 0x2e hu with hsep | ⟨p, hp, hu⟩
  · exact Or.inr hsep
  · have := h.2 p hp
    rw [Bool.and_eq_true, List.all_eq_true] at this
    exact Or.inl (this.2 u hu)

/-! ### Fields -/

private theorem splitDouble_ne_nil (s : JsString) : splitDouble s ≠ [] := by
  induction s using List.twoStepInduction with
  | nil => exact List.cons_ne_nil _ _
  | singleton u => exact List.cons_ne_nil _ _
  | cons_cons u v s _ ih =>
    rw [splitDouble]
    split
    · exact List.cons_ne_nil _ _
    · cases hs : splitDouble (v :: s) with
      | nil => exact absurd hs (ih v)
      | cons p ps => exact List.cons_ne_nil _ _

private theorem splitDouble_cons {u v : UInt16} (s : JsString) (h : ¬ (u = 0x3a ∧ v = 0x3a)) :
    splitDouble (u :: v :: s) = (u :: (splitDouble (v :: s)).headD []) :: (splitDouble (v :: s)).tail := by
  rw [splitDouble, if_neg h]
  cases hs : splitDouble (v :: s) with
  | nil => exact absurd hs (splitDouble_ne_nil _)
  | cons p ps => rfl

/-- Without a `::` a text is in the first part, with what follows it up to a `::`. -/
private theorem splitDouble_append {t : JsString} (zone : JsString) (ht : doubleColon t = none)
    (hz : zone.head? ≠ some 0x3a) :
    splitDouble (t ++ zone) = (t ++ (splitDouble zone).headD []) :: (splitDouble zone).tail := by
  induction t using List.twoStepInduction with
  | nil =>
    rw [List.nil_append, List.nil_append]
    cases hs : splitDouble zone with
    | nil => exact absurd hs (splitDouble_ne_nil _)
    | cons p ps => rfl
  | singleton u =>
    cases zone with
    | nil => rfl
    | cons v zone =>
      have hv : ¬ (u = 0x3a ∧ v = 0x3a) := fun h => hz (by rw [h.2]; rfl)
      rw [List.singleton_append, splitDouble_cons _ hv]
      rfl
  | cons_cons u v s _ ih =>
    by_cases huv : u = 0x3a ∧ v = 0x3a
    · rw [doubleColon, if_pos huv] at ht
      cases ht
    · rw [doubleColon, if_neg huv, Option.map_eq_none_iff] at ht
      rw [List.cons_append, List.cons_append, splitDouble_cons _ huv, ← List.cons_append, ih v ht]
      rfl

/-- Before the first `::` is the first part. -/
private theorem splitDouble_doubleColon {t a b : JsString} (zone : JsString) (h : doubleColon t = some (a, b)) :
    splitDouble (t ++ zone) = a :: splitDouble (b ++ zone) := by
  induction t using doubleColon.induct generalizing a with
  | case1 u v s huv =>
    rw [doubleColon, if_pos huv, Option.some.injEq, Prod.mk.injEq] at h
    rw [List.cons_append, List.cons_append, splitDouble, if_pos huv, ← h.1, ← h.2]
  | case2 u v s huv ih =>
    rw [doubleColon, if_neg huv, Option.map_eq_some_iff] at h
    obtain ⟨⟨a', b'⟩, hrest, h⟩ := h
    obtain ⟨rfl, rfl⟩ := Prod.mk.inj h
    rw [List.cons_append, List.cons_append, splitDouble_cons _ huv, ← List.cons_append, ih hrest]
    rfl
  | case3 s hs =>
    rw [doubleColon] at h
    · cases h
    · exact hs

private theorem splitDouble_lower (s : JsString) : splitDouble (lower s) = (splitDouble s).map lower := by
  have hcolon (u : UInt16) : lowerUnit u = 0x3a ↔ u = 0x3a := lowerUnit_eq_iff (by decide)
  induction s using List.twoStepInduction with
  | nil => rfl
  | singleton u => rfl
  | cons_cons u v s ih ih' =>
    by_cases huv : u = 0x3a ∧ v = 0x3a
    · rw [lower, List.map_cons, List.map_cons, splitDouble, if_pos (by rwa [hcolon, hcolon]), splitDouble, if_pos huv,
        List.map_cons, ← ih]
      rfl
    · have hcons : splitDouble (lower (u :: v :: s)) =
          (lowerUnit u :: (splitDouble (lower (v :: s))).headD []) :: (splitDouble (lower (v :: s))).tail :=
        splitDouble_cons _ (by rwa [hcolon, hcolon])
      rw [hcons, ih', splitDouble_cons s huv]
      cases hs : splitDouble (v :: s) with
      | nil => exact absurd hs (splitDouble_ne_nil _)
      | cons p ps => rfl

/-- The fields of a text with a zone after it: those of the text, but for what the zone adds to the last. -/
private theorem split_append_right (sep : UInt16) (t zone : JsString) :
    ∃ init last, split sep t = init ++ [last] ∧
      split sep (t ++ zone) = init ++ (last ++ (split sep zone).headD []) :: (split sep zone).tail := by
  induction t with
  | nil =>
    refine ⟨[], [], rfl, ?_⟩
    cases hs : split sep zone with
    | nil => exact absurd hs (split_ne_nil _ _)
    | cons p ps => rw [List.nil_append, hs]; rfl
  | cons u t ih =>
    obtain ⟨init, last, ht, hzone⟩ := ih
    by_cases hu : u = sep
    · exact ⟨[] :: init, last, by rw [split, if_pos hu, ht]; rfl, by rw [List.cons_append, split, if_pos hu, hzone]; rfl⟩
    · rw [List.cons_append, split, if_neg hu, ht, split, if_neg hu, hzone]
      cases init with
      | nil => exact ⟨[], u :: last, rfl, rfl⟩
      | cons p init => exact ⟨(u :: p) :: init, last, rfl, rfl⟩

/-- The groups of fields are one for each, but two for a dotted address at the end. -/
private theorem groups_concat {tail : Bool} {init : List JsString} {last : JsString} {gs : List ℕ}
    (h : groups tail (init ++ [last]) = some gs) :
    ∃ xs es, init.map hexGroup = xs.map some ∧ gs = xs ++ es ∧
      ((∃ g, hexGroup last = some g ∧ es = [g]) ∨ tail = true ∧ ∃ v, v4Value last = some v ∧ es = [v / 65536, v % 65536]) := by
  induction init generalizing gs with
  | nil =>
    rw [List.nil_append, groups, Option.or_eq_some_iff] at h
    rcases h with h | ⟨-, h⟩
    · obtain ⟨g, hg, rfl⟩ := Option.map_eq_some_iff.1 h
      exact ⟨[], [g], rfl, rfl, Or.inl ⟨g, hg, rfl⟩⟩
    · by_cases htail : tail = true
      · rw [if_pos htail] at h
        obtain ⟨v, hv, rfl⟩ := Option.map_eq_some_iff.1 h
        exact ⟨[], _, rfl, rfl, Or.inr ⟨htail, v, hv, rfl⟩⟩
      · rw [if_neg htail] at h
        cases h
  | cons p init ih =>
    rw [List.cons_append, groups] at h
    · obtain ⟨g, hg, h⟩ := Option.bind_eq_some_iff.1 h
      obtain ⟨gs', hgs, rfl⟩ := Option.map_eq_some_iff.1 h
      obtain ⟨xs, es, hinit, rfl, hlast⟩ := ih hgs
      exact ⟨g :: xs, es, by rw [List.map_cons, List.map_cons, hg, hinit], rfl, hlast⟩
    · simp

private theorem fields_of_ne_nil {s : JsString} (h : s ≠ []) : fields s = split 0x3a s := if_neg (by simpa using h)

private theorem mem_headD_split {sep u : UInt16} {s : JsString} (h : s.head? = some u) (hu : u ≠ sep) :
    u ∈ (split sep s).headD [] := by
  cases s with
  | nil => cases h
  | cons v s =>
    obtain rfl := Option.some.inj h
    rw [split, if_neg hu]
    cases split sep s with
    | nil => exact List.mem_singleton_self _
    | cons p ps => exact List.mem_cons_self

/-- The fields of a text with a zone after it begin with groups.  Where there is more, a field with a `%` or a point is next. -/
private theorem fields_append {tail : Bool} {b zone : JsString} {gs : List ℕ} (h : groups tail (fields b) = some gs)
    (hz : zone = [] ∨ zone.head? = some 0x25) :
    ∃ clean rest xs es, fields (b ++ zone) = clean ++ rest ∧ clean.map hexGroup = xs.map some ∧ gs = xs ++ es ∧
      es.length ≤ 2 ∧ (rest = [] ∧ es = [] ∨ (tail = true ∨ zone ≠ []) ∧
        ∃ r, rest.head? = some r ∧ ((0x25 : UInt16) ∈ r ∨ (0x2e : UInt16) ∈ r)) := by
  by_cases hb : b = []
  · rw [hb, show fields [] = [] from rfl, groups] at h
    obtain rfl := Option.some.inj h
    rcases hz with rfl | hz
    · rw [hb]
      exact ⟨[], [], [], [], rfl, rfl, rfl, Nat.zero_le _, Or.inl ⟨rfl, rfl⟩⟩
    · have hne : zone ≠ [] := by
        rintro rfl
        cases hz
      refine ⟨[], fields zone, [], [], by rw [hb]; rfl, rfl, rfl, Nat.zero_le _, Or.inr ⟨Or.inr hne, ?_⟩⟩
      refine ⟨(split 0x3a zone).headD [], ?_, Or.inl (mem_headD_split hz (by decide))⟩
      rw [fields_of_ne_nil hne]
      cases hs : split 0x3a zone with
      | nil => exact absurd hs (split_ne_nil _ _)
      | cons p ps => rfl
  · obtain ⟨init, last, hsplit, hzone⟩ := split_append_right 0x3a b zone
    rw [fields_of_ne_nil hb, hsplit] at h
    obtain ⟨xs, es, hinit, hgs, hlast⟩ := groups_concat h
    rw [fields_of_ne_nil (List.append_ne_nil_of_left_ne_nil hb zone), hzone]
    have hes : es.length ≤ 2 := by
      rcases hlast with ⟨g, -, rfl⟩ | ⟨-, v, -, rfl⟩
      · exact Nat.le_succ 1
      · exact le_rfl
    rcases hz with rfl | hz
    · -- the last field is as it is
      have hnil : (split 0x3a ([] : JsString)).headD [] = [] ∧ (split 0x3a ([] : JsString)).tail = [] := ⟨rfl, rfl⟩
      rw [hnil.1, hnil.2, List.append_nil]
      rcases hlast with ⟨g, hg, rfl⟩ | ⟨htail, v, hv, rfl⟩
      · refine ⟨init ++ [last], [], xs ++ [g], [], (List.append_nil _).symm, ?_, ?_, Nat.zero_le _, Or.inl ⟨rfl, rfl⟩⟩
        · rw [List.map_append, List.map_append, hinit, List.map_singleton, List.map_singleton, hg]
        · rw [hgs, List.append_nil]
      · have hpoint : (0x2e : UInt16) ∈ last := point_mem_of_isIPv4 (Option.isSome_iff_exists.2 ⟨v, hv⟩)
        exact ⟨init, [last], xs, _, rfl, hinit, hgs, le_rfl, Or.inr ⟨Or.inl htail, last, rfl, Or.inr hpoint⟩⟩
    · have hne : zone ≠ [] := by
        rintro rfl
        cases hz
      have hpercent : (0x25 : UInt16) ∈ last ++ (split 0x3a zone).headD [] :=
        List.mem_append_right _ (mem_headD_split hz (by decide))
      exact ⟨init, _, xs, es, rfl, hinit, hgs, hes, Or.inr ⟨Or.inr hne, _, rfl, Or.inl hpercent⟩⟩

private theorem hexGroup_lt {f : JsString} {g : ℕ} (h : hexGroup f = some g) : g < 65536 := by
  obtain ⟨ds, -, hall, hpos, hlen, rfl⟩ := digits_of_hexGroup h
  match ds, hpos, hlen with
  | [a], _, _ =>
    have ha : a < 16 := hall a (by simp)
    simp only [List.foldl_cons, List.foldl_nil]
    omega
  | [a, b], _, _ =>
    have ha : a < 16 := hall a (by simp)
    have hb : b < 16 := hall b (by simp)
    simp only [List.foldl_cons, List.foldl_nil]
    omega
  | [a, b, c], _, _ =>
    have ha : a < 16 := hall a (by simp)
    have hb : b < 16 := hall b (by simp)
    have hc : c < 16 := hall c (by simp)
    simp only [List.foldl_cons, List.foldl_nil]
    omega
  | [a, b, c, d], _, _ =>
    have ha : a < 16 := hall a (by simp)
    have hb : b < 16 := hall b (by simp)
    have hc : c < 16 := hall c (by simp)
    have hd : d < 16 := hall d (by simp)
    simp only [List.foldl_cons, List.foldl_nil]
    omega

/-- The groups of fields are numbers of 16 bits, and no field is empty. -/
private theorem groups_spec {tail : Bool} {ps : List JsString} {gs : List ℕ} (h : groups tail ps = some gs) :
    (∀ g ∈ gs, g < 65536) ∧ [] ∉ ps := by
  rcases List.eq_nil_or_concat ps with rfl | ⟨init, last, rfl⟩
  · obtain rfl : [] = gs := Option.some.inj h
    exact ⟨fun g hg => (by cases hg), List.not_mem_nil⟩
  · rw [List.concat_eq_append] at h ⊢
    obtain ⟨xs, es, hinit, rfl, hlast⟩ := groups_concat h
    have hof : ∀ p ∈ init, ∃ g ∈ xs, hexGroup p = some g := by
      intro p hp
      have hmem : hexGroup p ∈ xs.map some := hinit ▸ List.mem_map_of_mem hp
      obtain ⟨g, hg, heq⟩ := List.mem_map.1 hmem
      exact ⟨g, hg, heq.symm⟩
    have hxs : ∀ g ∈ xs, g < 65536 := by
      intro g hg
      have hmem : some g ∈ init.map hexGroup := hinit ▸ List.mem_map_of_mem hg
      obtain ⟨p, -, hp⟩ := List.mem_map.1 hmem
      exact hexGroup_lt hp
    refine ⟨fun g hg => ?_, fun hnil => ?_⟩
    · rcases List.mem_append.1 hg with hg | hg
      · exact hxs g hg
      · rcases hlast with ⟨g', hg', rfl⟩ | ⟨-, v, hv, rfl⟩
        · rw [List.mem_singleton.1 hg]
          exact hexGroup_lt hg'
        · have hlt := v4Value_lt hv
          simp only [List.mem_cons, List.not_mem_nil, or_false] at hg
          omega
    · rcases List.mem_append.1 hnil with hnil | hnil
      · obtain ⟨g, -, hg⟩ := hof [] hnil
        cases hg
      · rw [← List.mem_singleton.1 hnil] at hlast
        rcases hlast with ⟨g, hg, -⟩ | ⟨-, v, hv, -⟩
        · cases hg
        · cases hv

/-- Fields of groups are not empty, so there is no `::` between them. -/
private theorem doubleColon_of_groups {tail : Bool} {b : JsString} {gs : List ℕ}
    (h : groups tail (fields b) = some gs) :
    doubleColon b = none := by
  cases hb : doubleColon b with
  | none => rfl
  | some pq =>
    obtain ⟨p, q⟩ := pq
    have htext := eq_of_doubleColon hb
    have hne : b ≠ [] := by
      rw [htext]
      exact List.append_ne_nil_of_right_ne_nil _ (List.cons_ne_nil _ _)
    have hmem : [] ∈ fields b := by
      rw [fields_of_ne_nil hne, htext, split_append, split, if_pos rfl]
      exact List.mem_append_right _ List.mem_cons_self
    exact absurd hmem (groups_spec h).2

/-! ### The fields of a key -/

/-- What a field is in a key. -/
def fieldKey (f : JsString) : JsString := dropZeros (lower f)

/-- The fields before the first `::`. -/
def fieldsBefore (s : JsString) : List JsString := fields ((splitDouble s).headD [])

def netKey (ks : List JsString) : JsString := [0x3a].intercalate ks ++ js "::/64"

private theorem map_fieldKey {ps : List JsString} {gs : List ℕ} (h : ps.map hexGroup = gs.map some) :
    ps.map fieldKey = gs.map groupKey := by
  induction ps generalizing gs with
  | nil =>
    rw [List.map_nil, eq_comm, List.map_eq_nil_iff] at h
    rw [h]
    rfl
  | cons p ps ih =>
    cases gs with
    | nil => cases h
    | cons g gs =>
      rw [List.map_cons, List.map_cons, List.cons.injEq] at h
      rw [List.map_cons, List.map_cons, ih h.2, fieldKey, dropZeros_lower h.1]

private theorem addressKey_eq {s : JsString} (hcolon : (0x3a : UInt16) ∈ s)
    (hplain : isDotted (if (js "::ffff:").isPrefixOf (lower s) then (lower s).drop 7 else lower s) = false) :
    addressKey s =
      netKey ((filled (groupKey 0) ((fieldsBefore s).map fieldKey) ((fieldsAfter s).map fieldKey)).take 4) := by
  have hcontains : ((lower s).contains 0x3a) = true := by
    rw [List.contains_iff_mem]
    exact List.mem_map.2 ⟨0x3a, hcolon, by decide⟩
  have hgroups : ∀ p : JsString, (if p = [] then [] else split 0x3a p) = fields p := by
    intro p
    by_cases hp : p = []
    · rw [if_pos hp, hp]
      rfl
    · rw [if_neg hp, fields_of_ne_nil hp]
  have hbefore : fields ((splitDouble (lower s)).headD []) = (fieldsBefore s).map lower := by
    rw [splitDouble_lower, fieldsBefore, ← fields_lower]
    cases splitDouble s <;> rfl
  have hafter : fields ((splitDouble (lower s)).tail.headD []) = (fieldsAfter s).map lower := by
    rw [splitDouble_lower, fieldsAfter, ← fields_lower, ← List.map_tail]
    cases (splitDouble s).tail <;> rfl
  have hfill : (fieldsBefore s).map lower ++ List.replicate (8 - ((fieldsBefore s).map lower).length -
      ((fieldsAfter s).map lower).length) (js "0") ++ (fieldsAfter s).map lower =
        filled (js "0") ((fieldsBefore s).map lower) ((fieldsAfter s).map lower) := rfl
  have hmap : ∀ xs ys : List JsString, (filled (js "0") (xs.map lower) (ys.map lower)).map dropZeros =
      filled (groupKey 0) (xs.map fieldKey) (ys.map fieldKey) := by
    intro xs ys
    simp only [filled, List.map_append, List.map_map, List.map_replicate, List.length_map]
    rfl
  unfold addressKey
  dsimp only
  rw [hplain, hcontains]
  simp only [hgroups, hbefore, hafter, hfill, Bool.false_eq_true, if_false, Bool.not_true]
  rw [List.map_take, hmap]
  rfl

/-! ### IPv6 addresses -/

private theorem parts_of_v6Value {s zone : JsString} {gs : List ℕ} (h : v6Value s = some (gs, zone)) :
    s = s.takeWhile (· != 0x25) ++ zone ∧ (zone = [] ∨ zone.head? = some 0x25) ∧ v6Groups (s.takeWhile (· != 0x25)) = some gs := by
  unfold v6Value at h
  dsimp only at h
  split at h
  · obtain ⟨gs', hgs, heq⟩ := Option.map_eq_some_iff.1 h
    obtain ⟨rfl, rfl⟩ := Prod.mk.inj heq
    refine ⟨List.takeWhile_append_dropWhile.symm, ?_, hgs⟩
    have hhead := head?_dropWhile (· != 0x25) s
    cases hz : s.dropWhile (· != 0x25) with
    | nil => exact Or.inl rfl
    | cons u z =>
      rw [hz] at hhead
      have hu : u = 0x25 := by simpa using hhead u rfl
      rw [hu]
      exact Or.inr rfl
  · cases h

/-- The first part of a zone begins as the zone does. -/
private theorem headD_splitDouble_zone {zone : JsString} (h : zone = [] ∨ zone.head? = some 0x25) :
    (splitDouble zone).headD [] = [] ∨ ((splitDouble zone).headD []).head? = some 0x25 := by
  rcases h with rfl | h
  · exact Or.inl rfl
  · right
    match zone, h with
    | [u], h => exact h
    | u :: v :: z, h =>
      have hu : u = 0x25 := Option.some.inj h
      have hcolon : ¬ (u = 0x3a ∧ v = 0x3a) := fun hboth => absurd (hu.symm.trans hboth.1) (by decide)
      rw [splitDouble_cons z hcolon]
      exact h

private theorem headD_ne_of_zone {zone : JsString} (h : zone = [] ∨ zone.head? = some 0x25) :
    zone.head? ≠ some 0x3a := by
  rcases h with rfl | h
  · exact fun hnil => (by cases hnil)
  · rw [h]
    decide

/-- The groups of an address: eight numbers of 16 bits. -/
private theorem v6Groups_spec {s : JsString} {gs : List ℕ} (h : v6Groups s = some gs) :
    gs.length = 8 ∧ ∀ g ∈ gs, g < 65536 := by
  unfold v6Groups at h
  split at h
  · obtain ⟨hgs, hlen⟩ := Option.filter_eq_some_iff.1 h
    exact ⟨by simpa using hlen, (groups_spec hgs).1⟩
  · obtain ⟨xs, hxs, h⟩ := Option.bind_eq_some_iff.1 h
    obtain ⟨ys, hys, h⟩ := Option.bind_eq_some_iff.1 h
    split at h
    · obtain rfl := Option.some.inj h
      refine ⟨?_, fun g hg => ?_⟩
      · simp only [List.length_append, List.length_replicate]
        omega
      · simp only [List.mem_append, List.mem_replicate] at hg
        rcases hg with (hg | hg) | hg
        · exact (groups_spec hxs).1 g hg
        · omega
        · exact (groups_spec hys).1 g hg
    · cases h

/-- The fields before a `::`, or before the end, are those of groups. -/
private theorem take_key_of_none {s zone : JsString} {gs : List ℕ} (h : v6Value s = some (gs, zone))
    (hd : doubleColon (s.takeWhile (· != 0x25)) = none) (ys : List JsString) :
    (filled (groupKey 0) ((fieldsBefore s).map fieldKey) ys).take 4 = (gs.take 4).map groupKey := by
  obtain ⟨hs, hzone, hgs⟩ := parts_of_v6Value h
  have hlen := (v6Groups_spec hgs).1
  unfold v6Groups at hgs
  rw [hd] at hgs
  obtain ⟨hgroups, -⟩ := Option.filter_eq_some_iff.1 hgs
  have hbefore : fieldsBefore s = fields (s.takeWhile (· != 0x25) ++ (splitDouble zone).headD []) := by
    rw [fieldsBefore]
    conv_lhs => rw [hs, splitDouble_append zone hd (headD_ne_of_zone hzone)]
    rfl
  obtain ⟨clean, rest, xs, es, hfields, hclean, rfl, hes, -⟩ := fields_append hgroups (headD_splitDouble_zone hzone)
  have hkeys := map_fieldKey hclean
  have hcl : clean.length = xs.length := by
    have := congrArg List.length hclean
    rwa [List.length_map, List.length_map] at this
  rw [List.length_append] at hlen
  rw [filled, List.append_assoc, hbefore, hfields, List.map_append, List.append_assoc, hkeys,
    List.take_append_of_le_length (by rw [List.length_map]; omega), List.take_append_of_le_length (by omega), List.map_take]

private theorem lower_mem_of_mark {f : JsString} (h : (0x25 : UInt16) ∈ f ∨ (0x2e : UInt16) ∈ f) :
    (0x25 : UInt16) ∈ lower f ∨ (0x2e : UInt16) ∈ lower f :=
  h.imp (fun h => List.mem_map.2 ⟨_, h, by decide⟩) fun h => List.mem_map.2 ⟨_, h, by decide⟩

/-- The fields that come among the first four are zeros when they are clean and have the keys of zeros. -/
private theorem zeros_iff {after clean rest : List JsString} {cs : List ℕ} (n : ℕ) (hafter : after = clean ++ rest)
    (hclean : clean.map hexGroup = cs.map some) (hcs : ∀ g ∈ cs, g < 65536)
    (hmark : ∃ r, rest.head? = some r ∧ ((0x25 : UInt16) ∈ r ∨ (0x2e : UInt16) ∈ r)) :
    (n ≤ (cs.map groupKey).length ∧ ∀ y ∈ (cs.map groupKey).take n, y = groupKey 0) ↔
      ∀ f ∈ after.take n, hexGroup f = some 0 := by
  have hlen : clean.length = cs.length := by
    have := congrArg List.length hclean
    rwa [List.length_map, List.length_map] at this
  have hzeros : (∀ y ∈ (cs.map groupKey).take n, y = groupKey 0) ↔ ∀ f ∈ clean.take n, hexGroup f = some 0 := by
    have htake : (clean.take n).map hexGroup = (cs.take n).map some := by
      rw [List.map_take, hclean, List.map_take]
    rw [← List.map_take]
    constructor
    · intro h f hf
      have hmem : hexGroup f ∈ (cs.take n).map some := htake ▸ List.mem_map_of_mem hf
      obtain ⟨g, hg, heq⟩ := List.mem_map.1 hmem
      have hzero := h _ (List.mem_map_of_mem hg)
      rw [← heq, groupKey_injective (hcs g (List.mem_of_mem_take hg)) (by decide) hzero]
    · intro h y hy
      obtain ⟨g, hg, rfl⟩ := List.mem_map.1 hy
      have hmem : some g ∈ (clean.take n).map hexGroup := htake ▸ List.mem_map_of_mem hg
      obtain ⟨f, hf, heq⟩ := List.mem_map.1 hmem
      rw [h f hf] at heq
      rw [Option.some.inj heq]
  rw [List.length_map, hzeros]
  constructor
  · rintro ⟨hle, h⟩ f hf
    rw [hafter, List.take_append_of_le_length (by omega)] at hf
    exact h f hf
  · intro h
    have hle : n ≤ cs.length := by
      by_contra hgt
      obtain ⟨r, hr, hmark⟩ := hmark
      have hmem : r ∈ after.take n := by
        cases rest with
        | nil => cases hr
        | cons q rest =>
          obtain rfl := Option.some.inj hr
          rw [hafter, List.take_append, show n - clean.length = (n - clean.length - 1) + 1 by omega, List.take_succ_cons]
          exact List.mem_append_right _ List.mem_cons_self
      exact dropZeros_ne_groupKey (lower_mem_of_mark hmark) 0 (dropZeros_lower (h r hmem))
    refine ⟨hle, fun f hf => h f ?_⟩
    rw [hafter, List.take_append_of_le_length (by omega)]
    exact hf

/-- The first four fields of the key are those of the /64 exactly where the `::` is counted right. -/
private theorem take_key_iff {s zone : JsString} {gs : List ℕ} (h : v6Value s = some (gs, zone)) :
    (filled (groupKey 0) ((fieldsBefore s).map fieldKey) ((fieldsAfter s).map fieldKey)).take 4 = (gs.take 4).map groupKey ↔
      wellCounted s = true := by
  obtain ⟨hs, hzone, hgs⟩ := parts_of_v6Value h
  unfold wellCounted
  cases hd : doubleColon (s.takeWhile (· != 0x25)) with
  | none => exact iff_of_true (take_key_of_none h hd _) rfl
  | some ab =>
    obtain ⟨a, b⟩ := ab
    dsimp only
    unfold v6Groups at hgs
    rw [hd] at hgs
    dsimp only at hgs
    obtain ⟨xs, hxs, hgs⟩ := Option.bind_eq_some_iff.1 hgs
    obtain ⟨ys, hys, hgs⟩ := Option.bind_eq_some_iff.1 hgs
    rw [hys, Option.getD_some]
    split at hgs
    · rename_i hcount
      obtain rfl := Option.some.inj hgs
      have hparts : splitDouble s = a :: splitDouble (b ++ zone) := by
        conv_lhs => rw [hs, splitDouble_doubleColon zone hd]
      have hbefore : fieldsBefore s = fields a := by
        rw [fieldsBefore, hparts]
        rfl
      have hafter : fieldsAfter s = fields (b ++ (splitDouble zone).headD []) := by
        rw [fieldsAfter, hparts, List.tail_cons,
          splitDouble_append zone (doubleColon_of_groups hys) (headD_ne_of_zone hzone)]
        rfl
      obtain ⟨hd', rest', xs', es', hfa, hclean', hxs', -, hend⟩ := fields_append hxs (Or.inl rfl)
      obtain ⟨clean, rest, cs, es, hfb, hclean, rfl, hes, hmark⟩ := fields_append hys (headD_splitDouble_zone hzone)
      have hkeys : (fields a).map fieldKey = xs.map groupKey := by
        rcases hend with ⟨rfl, rfl⟩ | ⟨hno, -⟩
        · rw [List.append_nil] at hfa hxs'
          rw [List.append_nil] at hfa
          rw [hfa, hxs', map_fieldKey hclean']
        · exact absurd hno (by simp)
      have hgroups : ((xs ++ List.replicate (8 - xs.length - (cs ++ es).length) 0 ++ (cs ++ es)).take 4).map groupKey =
          (filled (groupKey 0) (xs.map groupKey) ((cs ++ es).map groupKey)).take 4 := by
        rw [filled, List.map_take]
        simp only [List.map_append, List.map_replicate, List.length_map, List.length_append]
      have hlen : (fields a).length = (xs.map groupKey).length := by
        rw [← hkeys, List.length_map]
      have hcslen : clean.length = cs.length := by
        have := congrArg List.length hclean
        rwa [List.length_map, List.length_map] at this
      have hafterKeys : (fieldsAfter s).map fieldKey = cs.map groupKey ++ rest.map fieldKey := by
        rw [hafter, hfb, List.map_append, map_fieldKey hclean]
      rw [hbefore, hkeys, hgroups, hlen, @take_filled_eq_iff _ _ _ (cs.map groupKey)]
      · rw [Bool.or_eq_true, beq_iff_eq, List.all_eq_true, List.length_map, List.length_map (f := groupKey)]
        simp only [beq_iff_eq]
        refine or_congr_right' fun hne => ?_
        refine zeros_iff _ (hafter.trans hfb) hclean (fun g hg => (groups_spec hys).1 g (List.mem_append_left _ hg)) ?_
        rcases hmark with ⟨rfl, rfl⟩ | ⟨-, hmark⟩
        · refine absurd ?_ hne
          rw [hafter, hfb, List.append_nil, List.append_nil, hcslen]
        · exact hmark
      · intro j hj
        rw [hafterKeys, List.getElem?_append_left hj]
      · intro j hj
        rw [List.map_append, List.getElem?_append_left hj]
      · rw [List.length_map, List.length_map]
        omega
      · rw [List.length_map, List.length_map, List.length_append]
        omega
      · rcases hmark with ⟨rfl, rfl⟩ | ⟨-, r, hr, hmark⟩
        · left
          rw [hafterKeys, List.map_nil, List.append_nil, List.append_nil]
        · right
          rw [hafterKeys, List.getElem?_append_right le_rfl, Nat.sub_self, List.getElem?_map]
          cases rest with
          | nil => cases hr
          | cons q rest =>
            obtain rfl := Option.some.inj hr
            exact fun heq => dropZeros_ne_groupKey (lower_mem_of_mark hmark) 0 (Option.some.inj heq)
    · cases hgs

/-! ### Keys of hosts -/

def hostKey : HostNet → JsString
  | .v4 n => dotted n
  | .v6 gs => netKey (gs.map groupKey)

private theorem mem_dotted {n : ℕ} {u : UInt16} (h : u ∈ dotted n) : isDigit u = true ∨ u = 0x2e := by
  rcases mem_intercalate h with h | ⟨w, hw, h⟩
  · exact Or.inr h
  · left
    simp only [List.mem_cons, List.not_mem_nil, or_false] at hw
    rcases hw with rfl | rfl | rfl | rfl <;> exact isDigit_of_mem_count h

private theorem dotted_ne_netKey (n : ℕ) (ks : List JsString) : dotted n ≠ netKey ks := by
  intro h
  have hmem : (0x3a : UInt16) ∈ dotted n := by
    rw [h, netKey]
    exact List.mem_append_right _ (by decide)
  rcases mem_dotted hmem with h | h <;> exact absurd h (by decide)

private theorem netKey_injective {ks ks' : List JsString} (hk : ks ≠ []) (hk' : ks' ≠ [])
    (hc : ∀ k ∈ ks, (0x3a : UInt16) ∉ k)
    (hc' : ∀ k ∈ ks', (0x3a : UInt16) ∉ k) (h : netKey ks = netKey ks') : ks = ks' := by
  have hjoin := List.append_cancel_right h
  rw [← split_intercalate hk hc, hjoin, split_intercalate hk' hc']

private theorem colon_notMem_groupKey (g : ℕ) : (0x3a : UInt16) ∉ groupKey g := by
  intro h
  obtain ⟨d, hd, hu⟩ := mem_groupKey h
  exact (hexUnit_lt hd).2.2.1 hu.symm

/-- What net.isIP reads of a dotted text with `::ffff:` before it. -/
private theorem v6Value_mapped {d : JsString} (h : isDotted d = true) :
    v6Value (js "::ffff:" ++ d) = (v4Value d).map fun v => ([0, 0, 0, 0, 0, 0xffff, v / 65536, v % 65536], []) := by
  have hne : ∀ v : UInt16, isDigit v = false → v ≠ 0x2e → v ∉ d := by
    intro v hdig hpoint hmem
    rcases mem_of_isDotted h hmem with hv | hv
    · rw [hdig] at hv
      cases hv
    · exact hpoint hv
  have hall : ∀ u ∈ js "::ffff:" ++ d, (u != 0x25) = true := by
    intro u hu
    rw [bne_iff_ne]
    rintro rfl
    rcases List.mem_append.1 hu with hu | hu
    · exact absurd hu (by decide)
    · exact hne 0x25 (by decide) (by decide) hu
  have htake : (js "::ffff:" ++ d).takeWhile (· != 0x25) = js "::ffff:" ++ d := List.takeWhile_eq_self_iff.2 hall
  have hdrop : (js "::ffff:" ++ d).dropWhile (· != 0x25) = [] := List.dropWhile_eq_nil_iff.2 hall
  have hdouble : doubleColon (js "::ffff:" ++ d) = some ([], js "ffff:" ++ d) := rfl
  have hfields : fields (js "ffff:" ++ d) = [js "ffff", d] := by
    rw [show js "ffff:" ++ d = js "ffff" ++ 0x3a :: d from rfl, fields_of_ne_nil (List.append_ne_nil_of_right_ne_nil _ (List.cons_ne_nil _ _)),
      split_append_cons (by decide), split_of_notMem (hne 0x3a (by decide) (by decide))]
  have hpoint : (0x2e : UInt16) ∈ d := by
    by_contra hmem
    rw [isDotted, split_of_notMem hmem] at h
    cases h
  have hhex : hexGroup d = none := by
    cases hg : hexGroup d with
    | none => rfl
    | some g => exact absurd (dropZeros_lower hg) (dropZeros_ne_groupKey (lower_mem_of_mark (Or.inr hpoint)) g)
  have hgroups : groups true [js "ffff", d] = (v4Value d).map fun v => [0xffff, v / 65536, v % 65536] := by
    rw [groups, groups, hhex, Option.map_none, Option.none_or, if_pos rfl, show hexGroup (js "ffff") = some 0xffff by decide +kernel,
      Option.bind_some, Option.map_map]
    · rfl
    · simp
  unfold v6Value
  dsimp only
  rw [htake, hdrop]
  show (v6Groups (js "::ffff:" ++ d)).map _ = _
  rw [v6Groups, hdouble]
  dsimp only
  rw [hfields, hgroups]
  cases v4Value d with
  | none => rfl
  | some v => rfl

private theorem dropPrefix_lower {s : JsString} (h : (js "::ffff:").isPrefixOf (lower s) = true) :
    lower s = js "::ffff:" ++ lower (s.drop 7) := by
  obtain ⟨t, ht⟩ := List.isPrefixOf_iff_prefix.1 h
  have hdrop : (lower s).drop 7 = t := by
    rw [← ht]
    rfl
  rw [← ht, ← hdrop, lower, lower, List.map_drop]

private theorem colon_mem_of_lower {s : JsString} (h : (0x3a : UInt16) ∈ lower s) : (0x3a : UInt16) ∈ s := by
  obtain ⟨u, hu, heq⟩ := List.mem_map.1 h
  rwa [← (lowerUnit_eq_iff (by decide)).1 heq]

private theorem v4Value_of_colon {s : JsString} (h : (0x3a : UInt16) ∈ s) : v4Value s = none := by
  cases hv : v4Value s with
  | none => rfl
  | some n =>
    rcases isDigit_or_point (Option.isSome_iff_exists.2 ⟨n, hv⟩) h with h | h <;> exact absurd h (by decide)

/-- An IPv4 address, or one with `::ffff:` before it, has the key of its host. -/
private theorem addressKey_of_isPlain {s : JsString} (h : isPlain s = true) :
    ∃ n < 2 ^ 32, hostNet s = some (.v4 n) ∧ addressKey s = dotted n := by
  unfold isPlain at h
  rcases Bool.or_eq_true_iff.1 h with h | h
  · obtain ⟨n, hn⟩ := Option.isSome_iff_exists.1 h
    have hmark : (js "::ffff:").isPrefixOf (lower s) = false := by
      rw [← Bool.not_eq_true, lower_of_isIPv4 h]
      intro hpre
      have hmem : (0x3a : UInt16) ∈ s := (List.isPrefixOf_iff_prefix.1 hpre).subset (by decide)
      rw [v4Value_of_colon hmem] at hn
      cases hn
    refine ⟨n, v4Value_lt hn, by rw [hostNet, hn]; rfl, ?_⟩
    unfold addressKey
    dsimp only
    rw [hmark, if_neg Bool.false_ne_true, lower_of_isIPv4 h, if_pos (isDotted_of_isIPv4 h), dotted_of_v4Value hn]
  · rw [Bool.and_eq_true] at h
    obtain ⟨hpre, hv4⟩ := h
    obtain ⟨n, hn⟩ := Option.isSome_iff_exists.1 hv4
    have hlow := dropPrefix_lower hpre
    rw [lower_of_isIPv4 hv4] at hlow
    have hdrop : (lower s).drop 7 = s.drop 7 := by
      rw [hlow]
      rfl
    have hcolon : (0x3a : UInt16) ∈ s := colon_mem_of_lower (by rw [hlow]; exact List.mem_append_left _ (by decide))
    have hv6 : (v6Value s).map (fun p => (p.1, lower p.2)) = some ([0, 0, 0, 0, 0, 0xffff, n / 65536, n % 65536], []) := by
      rw [← v6Value_lower, hlow, v6Value_mapped (isDotted_of_isIPv4 hv4), hn]
      rfl
    obtain ⟨p, hp, heq⟩ := Option.map_eq_some_iff.1 hv6
    have hgs : p.1 = [0, 0, 0, 0, 0, 0xffff, n / 65536, n % 65536] := (Prod.mk.inj heq).1
    refine ⟨n, v4Value_lt hn, ?_, ?_⟩
    · rw [hostNet, v4Value_of_colon hcolon, hp, Option.map_none, Option.none_or, Option.map_some, hgs]
      show some (HostNet.v4 (n / 65536 * 65536 + n % 65536)) = _
      rw [Nat.div_add_mod']
    · unfold addressKey
      dsimp only
      rw [if_pos hpre, hdrop, if_pos (isDotted_of_isIPv4 hv4), dotted_of_v4Value hn]

private theorem colon_mem_of_v6Value {s zone : JsString} {gs : List ℕ} (h : v6Value s = some (gs, zone)) :
    (0x3a : UInt16) ∈ s := by
  obtain ⟨hs, -, hgs⟩ := parts_of_v6Value h
  have hlen := (v6Groups_spec hgs).1
  rw [hs]
  refine List.mem_append_left _ ?_
  unfold v6Groups at hgs
  split at hgs
  · obtain ⟨hgroups, -⟩ := Option.filter_eq_some_iff.1 hgs
    by_contra hmem
    have happ := fields_append hgroups (Or.inl (Eq.refl []))
    obtain ⟨clean, rest, xs, es, hfields, hclean, rfl, hes, -⟩ := happ
    have hone : (fields (s.takeWhile (· != 0x25) ++ [])).length ≤ 1 := by
      rw [List.append_nil, fields]
      split
      · exact Nat.zero_le _
      · rw [split_of_notMem hmem]
        exact le_rfl
    have hcl := congrArg List.length hclean
    rw [List.length_map, List.length_map] at hcl
    rw [hfields, List.length_append] at hone
    rw [List.length_append] at hlen
    omega
  · rename_i a b hd
    rw [eq_of_doubleColon hd]
    exact List.mem_append_right _ List.mem_cons_self

/-- The others are keyed by their fields. -/
private theorem v6_of_not_isPlain {s : JsString} (h : isIP s = true) (hp : isPlain s = false) :
    ∃ gs zone, v4Value s = none ∧ v6Value s = some (gs, zone) ∧
      addressKey s = netKey ((filled (groupKey 0) ((fieldsBefore s).map fieldKey) ((fieldsAfter s).map fieldKey)).take 4) := by
  rw [isPlain, Bool.or_eq_false_iff] at hp
  obtain ⟨hv4, hmapped⟩ := hp
  have hv6 : isIPv6 s = true := (Bool.or_eq_true_iff.1 h).resolve_left (by rw [hv4]; exact Bool.false_ne_true)
  obtain ⟨⟨gs, zone⟩, hgs⟩ := Option.isSome_iff_exists.1 hv6
  have hcolon := colon_mem_of_v6Value hgs
  refine ⟨gs, zone, v4Value_of_colon hcolon, hgs, addressKey_eq hcolon ?_⟩
  rw [← Bool.not_eq_true]
  intro hdotted
  by_cases hpre : (js "::ffff:").isPrefixOf (lower s) = true
  · -- what follows `::ffff:` would be an IPv4 address
    have hlow := dropPrefix_lower hpre
    have hdrop : (lower s).drop 7 = lower (s.drop 7) := by
      rw [hlow]
      rfl
    rw [if_pos hpre, hdrop] at hdotted
    have hvalue := v6Value_lower s
    rw [hlow, v6Value_mapped hdotted, hgs, v4Value_lower] at hvalue
    obtain ⟨v, hv, -⟩ := Option.map_eq_some_iff.1 hvalue
    have hplain : isIPv4 (s.drop 7) = true := Option.isSome_iff_exists.2 ⟨v, hv⟩
    rw [hpre, hplain] at hmapped
    cases hmapped
  · rw [if_neg hpre] at hdotted
    have hmem : (0x3a : UInt16) ∈ lower s := List.mem_map.2 ⟨_, hcolon, by decide⟩
    rcases mem_of_isDotted hdotted hmem with h | h <;> exact absurd h (by decide)

private theorem sep_notMem_split {sep : UInt16} {s p : JsString} (h : p ∈ split sep s) : sep ∉ p := by
  induction s generalizing p with
  | nil =>
    rw [List.mem_singleton.1 h]
    exact List.not_mem_nil
  | cons u s ih =>
    rw [split] at h
    by_cases hu : u = sep
    · rw [if_pos hu] at h
      rcases List.mem_cons.1 h with rfl | h
      · exact List.not_mem_nil
      · exact ih h
    · rw [if_neg hu] at h
      cases hs : split sep s with
      | nil => exact absurd hs (split_ne_nil _ _)
      | cons q qs =>
        rw [hs] at h ih
        rcases List.mem_cons.1 h with rfl | h
        · rw [List.mem_cons, not_or]
          exact ⟨Ne.symm hu, ih List.mem_cons_self⟩
        · exact ih (List.mem_cons_of_mem q h)

private theorem colon_notMem_fieldKey {t k : JsString} (h : k ∈ (fields t).map fieldKey) : (0x3a : UInt16) ∉ k := by
  obtain ⟨f, hf, rfl⟩ := List.mem_map.1 h
  intro hmem
  have hcolon := colon_mem_of_lower ((dropZeros_sublist _).subset hmem)
  by_cases ht : t = []
  · rw [ht] at hf
    cases hf
  · rw [fields_of_ne_nil ht] at hf
    exact sep_notMem_split hf hcolon

private theorem netOf_cases {gs : List ℕ} (hlen : gs.length = 8) (hall : ∀ g ∈ gs, g < 65536) :
    (∃ n < 2 ^ 32, netOf gs = .v4 n) ∨
      ∃ gs' : List ℕ, gs'.length = 4 ∧ (∀ g ∈ gs', g < 65536) ∧ netOf gs = .v6 gs' := by
  have hget : ∀ i, gs.getD i 0 < 65536 := by
    intro i
    rw [List.getD_eq_getElem?_getD]
    cases hi : gs[i]? with
    | none => decide
    | some g => exact hall g (List.mem_of_getElem? hi)
  unfold netOf
  split
  · have h6 := hget 6
    have h7 := hget 7
    exact Or.inl ⟨_, by omega, rfl⟩
  · exact Or.inr ⟨gs.take 4, by rw [List.length_take, hlen]; rfl, fun g hg => hall g (List.mem_of_mem_take hg), rfl⟩

/-- The host of an address is an IPv4 address of 32 bits, or four groups of 16 bits. -/
private theorem hostNet_cases {s : JsString} {h : HostNet} (hs : hostNet s = some h) :
    (∃ n < 2 ^ 32, h = .v4 n) ∨ ∃ gs : List ℕ, gs.length = 4 ∧ (∀ g ∈ gs, g < 65536) ∧ h = .v6 gs := by
  unfold hostNet at hs
  cases hv4 : v4Value s with
  | some n =>
    rw [hv4] at hs
    exact Or.inl ⟨n, v4Value_lt hv4, (Option.some.inj hs).symm⟩
  | none =>
    rw [hv4, Option.map_none, Option.none_or] at hs
    obtain ⟨⟨gs, zone⟩, hv6, rfl⟩ := Option.map_eq_some_iff.1 hs
    obtain ⟨-, -, hgs⟩ := parts_of_v6Value hv6
    exact netOf_cases (v6Groups_spec hgs).1 (v6Groups_spec hgs).2

private theorem hostNet_isSome (s : IpText) : ∃ h, hostNet s.1 = some h := by
  unfold hostNet
  rcases Bool.or_eq_true_iff.1 s.2 with h | h
  · obtain ⟨n, hn⟩ := Option.isSome_iff_exists.1 h
    rw [hn]
    exact ⟨_, rfl⟩
  · obtain ⟨p, hp⟩ := Option.isSome_iff_exists.1 h
    rw [hp]
    cases v4Value s.1 with
    | none => exact ⟨_, rfl⟩
    | some n => exact ⟨_, rfl⟩

private theorem colon_notMem_filled {s k : JsString}
    (h : k ∈ (filled (groupKey 0) ((fieldsBefore s).map fieldKey) ((fieldsAfter s).map fieldKey)).take 4) :
    (0x3a : UInt16) ∉ k := by
  rcases List.mem_append.1 (List.mem_of_mem_take h) with h | h
  · rcases List.mem_append.1 h with h | h
    · exact colon_notMem_fieldKey h
    · rw [List.eq_of_mem_replicate h]
      exact colon_notMem_groupKey 0
  · exact colon_notMem_fieldKey h

private theorem take_filled_ne_nil {α : Type*} (z : α) (xs ys : List α) : (filled z xs ys).take 4 ≠ [] := by
  rw [← List.length_pos_iff, List.length_take, filled]
  simp only [List.length_append, List.length_replicate]
  omega

/-- An address has the key of its host exactly where it is well spelled. -/
private theorem addressKey_eq_hostKey_iff {s : JsString} {h : HostNet} (hip : isIP s = true) (hs : hostNet s = some h) :
    addressKey s = hostKey h ↔ wellKeyed s = true := by
  cases hp : isPlain s with
  | true =>
    obtain ⟨n, -, hn, hkey⟩ := addressKey_of_isPlain hp
    obtain rfl := Option.some.inj (hs.symm.trans hn)
    refine iff_of_true hkey ?_
    rw [wellKeyed, hp]
    rfl
  | false =>
    obtain ⟨gs, zone, hv4, hv6, hkey⟩ := v6_of_not_isPlain hip hp
    have hwell : wellKeyed s = (!isMapped gs && wellCounted s) := by
      rw [wellKeyed, hp, hv6]
      rfl
    have hnet : h = netOf gs := by
      rw [hostNet, hv4, hv6] at hs
      exact (Option.some.inj hs).symm
    rw [hkey, hwell, hnet, netOf]
    cases hm : isMapped gs with
    | true =>
      rw [if_pos rfl]
      refine iff_of_false (fun heq => dotted_ne_netKey _ _ heq.symm) ?_
      rw [Bool.not_true, Bool.false_and]
      exact Bool.false_ne_true
    | false =>
      rw [if_neg Bool.false_ne_true, Bool.not_false, Bool.true_and, ← take_key_iff hv6]
      obtain ⟨-, -, hgs⟩ := parts_of_v6Value hv6
      refine ⟨netKey_injective (take_filled_ne_nil _ _ _) ?_ (fun k => colon_notMem_filled) fun k hk => ?_, congrArg netKey⟩
      · rw [ne_eq, List.map_eq_nil_iff, ← List.length_eq_zero_iff, List.length_take, (v6Groups_spec hgs).1]
        decide
      · obtain ⟨g, -, rfl⟩ := List.mem_map.1 hk
        exact colon_notMem_groupKey g

private theorem map_groupKey_injective {gs gs' : List ℕ} (hg : ∀ g ∈ gs, g < 65536) (hg' : ∀ g ∈ gs', g < 65536)
    (h : gs.map groupKey = gs'.map groupKey) : gs = gs' := by
  induction gs generalizing gs' with
  | nil =>
    rw [List.map_nil, eq_comm, List.map_eq_nil_iff] at h
    exact h.symm
  | cons g gs ih =>
    cases gs' with
    | nil => cases h
    | cons g' gs' =>
      rw [List.map_cons, List.map_cons, List.cons.injEq] at h
      rw [groupKey_injective (hg g List.mem_cons_self) (hg' g' List.mem_cons_self) h.1,
        ih (fun x hx => hg x (List.mem_cons_of_mem g hx)) (fun x hx => hg' x (List.mem_cons_of_mem g' hx)) h.2]

/-- Hosts have different keys. -/
private theorem hostKey_injective {s t : JsString} {h h' : HostNet} (hs : hostNet s = some h) (ht : hostNet t = some h')
    (heq : hostKey h = hostKey h') : h = h' := by
  have hkeys : ∀ gs : List ℕ, ∀ k ∈ gs.map groupKey, (0x3a : UInt16) ∉ k := by
    intro gs k hk
    obtain ⟨g, -, rfl⟩ := List.mem_map.1 hk
    exact colon_notMem_groupKey g
  have hne : ∀ gs : List ℕ, gs.length = 4 → gs.map groupKey ≠ [] := by
    rintro gs hlen hnil
    rw [List.map_eq_nil_iff.1 hnil] at hlen
    cases hlen
  rcases hostNet_cases hs with ⟨n, hn, rfl⟩ | ⟨gs, hlen, hlt, rfl⟩ <;>
    rcases hostNet_cases ht with ⟨n', hn', rfl⟩ | ⟨gs', hlen', hlt', rfl⟩
  · have hvalue := v4Value_dotted hn
    rw [show dotted n = dotted n' from heq, v4Value_dotted hn'] at hvalue
    rw [Option.some.inj hvalue]
  · exact absurd heq (dotted_ne_netKey _ _)
  · exact absurd heq.symm (dotted_ne_netKey _ _)
  · rw [map_groupKey_injective hlt hlt' (netKey_injective (hne gs hlen) (hne gs' hlen') (hkeys gs) (hkeys gs') heq)]

/-! ### Full spellings -/

/-- All eight groups in four digits each. -/
def fullText (gs : List ℕ) : JsString := [0x3a].intercalate (gs.map hex4)

private theorem groups_hex4 {gs : List ℕ} (h : ∀ g ∈ gs, g < 65536) : groups true (gs.map hex4) = some gs := by
  induction gs with
  | nil => rfl
  | cons g gs ih =>
    have hg := hexGroup_hex4 (h g List.mem_cons_self)
    have hrest := ih fun x hx => h x (List.mem_cons_of_mem g hx)
    cases gs with
    | nil =>
      rw [List.map_singleton, groups, hg]
      rfl
    | cons g' gs =>
      rw [List.map_cons, groups, hg, hrest]
      · rfl
      · simp

private theorem v6Value_fullText {gs : List ℕ} (hlen : gs.length = 8) (h : ∀ g ∈ gs, g < 65536) :
    v6Value (fullText gs) = some (gs, []) ∧ doubleColon ((fullText gs).takeWhile (· != 0x25)) = none := by
  have hunit : ∀ w ∈ gs.map hex4, ∀ u ∈ w, ∃ d < 16, u = hexUnit d := by
    intro w hw u hu
    obtain ⟨g, -, rfl⟩ := List.mem_map.1 hw
    simp only [hex4, List.mem_cons, List.not_mem_nil, or_false] at hu
    rcases hu with rfl | rfl | rfl | rfl <;> exact ⟨_, Nat.mod_lt _ (by decide), rfl⟩
  have hall : ∀ u ∈ fullText gs, (u != 0x25) = true := by
    have hpercent : ∀ d < 16, hexUnit d ≠ 0x25 := by decide +kernel
    intro u hu
    rw [bne_iff_ne]
    rcases mem_intercalate hu with rfl | ⟨w, hw, hu⟩
    · decide
    · obtain ⟨d, hd, rfl⟩ := hunit w hw u hu
      exact hpercent d hd
  have htake : (fullText gs).takeWhile (· != 0x25) = fullText gs := List.takeWhile_eq_self_iff.2 hall
  have hdrop : (fullText gs).dropWhile (· != 0x25) = [] := List.dropWhile_eq_nil_iff.2 hall
  have hne : gs.map hex4 ≠ [] := by
    intro hnil
    rw [List.map_eq_nil_iff.1 hnil] at hlen
    cases hlen
  have hsplit : split 0x3a (fullText gs) = gs.map hex4 := by
    refine split_intercalate hne fun w hw hu => ?_
    obtain ⟨d, hd, heq⟩ := hunit w hw _ hu
    exact (hexUnit_lt hd).2.2.1 heq.symm
  have hfields : fields (fullText gs) = gs.map hex4 := by
    rw [← hsplit, fields_of_ne_nil]
    intro hnil
    have hlen' := congrArg List.length hsplit
    rw [hnil, List.length_map, hlen] at hlen'
    cases hlen'
  have hgroups : groups true (fields (fullText gs)) = some gs := by
    rw [hfields, groups_hex4 h]
  have hdouble := doubleColon_of_groups hgroups
  refine ⟨?_, by rwa [htake]⟩
  unfold v6Value
  dsimp only
  rw [htake, hdrop]
  show (v6Groups (fullText gs)).map _ = _
  rw [v6Groups, hdouble]
  dsimp only
  rw [hgroups, Option.filter_some, if_pos (by rw [hlen]; rfl)]
  rfl

/-- Each host has a spelling with its key: the dotted one, or the full one. -/
private theorem exists_wellKeyed (s : IpText) : ∃ t : IpText, wellKeyed t.1 = true ∧ hostNet t.1 = hostNet s.1 := by
  obtain ⟨h, hs⟩ := hostNet_isSome s
  have hdotted : ∀ n < 2 ^ 32, h = .v4 n → ∃ t : IpText, wellKeyed t.1 = true ∧ hostNet t.1 = hostNet s.1 := by
    rintro n hn rfl
    have hv4 : isIPv4 (dotted n) = true := Option.isSome_iff_exists.2 ⟨n, v4Value_dotted hn⟩
    have hip : isIP (dotted n) = true := Bool.or_eq_true_iff.2 (Or.inl hv4)
    have hwell : wellKeyed (dotted n) = true := by
      rw [wellKeyed, isPlain, hv4]
      rfl
    have hnet : hostNet (dotted n) = some (.v4 n) := by
      rw [hostNet, v4Value_dotted hn]
      rfl
    exact ⟨⟨dotted n, hip⟩, hwell, hnet.trans hs.symm⟩
  rcases hostNet_cases hs with ⟨n, hn, heq⟩ | ⟨gs', -, -, hnet⟩
  · exact hdotted n hn heq
  · -- the groups of the address itself, all written out
    have hv4 : v4Value s.1 = none := by
      cases hv4 : v4Value s.1 with
      | none => rfl
      | some n =>
        rw [hostNet, hv4, hnet] at hs
        cases hs
    have hv6 : ∃ gs zone, v6Value s.1 = some (gs, zone) ∧ h = netOf gs := by
      rw [hostNet, hv4, Option.map_none, Option.none_or] at hs
      obtain ⟨⟨gs, zone⟩, hv6, rfl⟩ := Option.map_eq_some_iff.1 hs
      exact ⟨gs, zone, hv6, rfl⟩
    obtain ⟨gs, zone, hv6, hof⟩ := hv6
    obtain ⟨-, -, hgs⟩ := parts_of_v6Value hv6
    obtain ⟨hlen, hlt⟩ := v6Groups_spec hgs
    obtain ⟨hfull, hdouble⟩ := v6Value_fullText hlen hlt
    have hmapped : isMapped gs = false := by
      rw [← Bool.not_eq_true]
      intro hm
      rw [netOf, if_pos hm, hnet] at hof
      cases hof
    have hip : isIP (fullText gs) = true := Bool.or_eq_true_iff.2 (Or.inr (Option.isSome_iff_exists.2 ⟨_, hfull⟩))
    have hwell : wellKeyed (fullText gs) = true := by
      rw [wellKeyed, hfull, wellCounted, hdouble, Option.any_some, hmapped]
      exact Bool.or_true _
    have hfullNet : hostNet (fullText gs) = some (netOf gs) := by
      rw [hostNet, v4Value_of_colon (colon_mem_of_v6Value hfull), hfull]
      rfl
    exact ⟨⟨fullText gs, hip⟩, hwell, hfullNet.trans (hof ▸ hs.symm)⟩

/-- An address that is well spelled, and no other, shares its key with just those of its host, among the well spelled. -/
theorem wellKeyed_iff (s : IpText) :
    wellKeyed s.1 = true ↔
      ∀ t : IpText, wellKeyed t.1 = true → (addressKey s.1 = addressKey t.1 ↔ hostNet s.1 = hostNet t.1) := by
  obtain ⟨h, hs⟩ := hostNet_isSome s
  constructor
  · intro hwell t htwell
    obtain ⟨h', ht⟩ := hostNet_isSome t
    rw [(addressKey_eq_hostKey_iff s.2 hs).2 hwell, (addressKey_eq_hostKey_iff t.2 ht).2 htwell, hs, ht, Option.some.injEq]
    exact ⟨hostKey_injective hs ht, congrArg hostKey⟩
  · intro hall
    obtain ⟨t, htwell, hnet⟩ := exists_wellKeyed s
    rw [← addressKey_eq_hostKey_iff s.2 hs, (hall t htwell).2 hnet.symm]
    exact (addressKey_eq_hostKey_iff t.2 (hnet.trans hs)).2 htwell

/-- An IPv4 address gets a second key when it is written in hexadecimal, and shares that one with all others. -/
theorem respelled_key_differs :
    ¬ ∀ s t : IpText, addressKey s.1 = addressKey t.1 ↔ hostNet s.1 = hostNet t.1 := by
  intro h
  have hkeys := (h ⟨js "1.2.3.4", by decide +kernel⟩ ⟨js "::ffff:102:304", by decide +kernel⟩).2 (by decide +kernel)
  revert hkeys
  decide +kernel

end Servitals
