import Servitals.JsNumber

/-!
# Addresses as text

`isIPv4` and `isIPv6` of Node's net module, and the address that a text stands for: a number of 32 bits, or eight
groups of 16 bits with a zone.
-/

namespace Servitals

/-! ### IPv4 -/

/-- One part of an IPv4 address: 0 to 255, without leading zeros. -/
def octet (s : JsString) : Option ℕ :=
  if s != [] && s.length ≤ 3 && s.all isDigit && (s.length == 1 || s.head? != some 0x30) && decimal s ≤ 255 then
    some (decimal s)
  else none

/-- The number a dotted IPv4 address stands for. -/
def v4Value (s : JsString) : Option ℕ :=
  match (split 0x2e s).map octet with
  | [some a, some b, some c, some d] => some (((a * 256 + b) * 256 + c) * 256 + d)
  | _ => none

/-- `net.isIPv4(s)` -/
def isIPv4 (s : JsString) : Bool := (v4Value s).isSome

/-! ### IPv6 -/

/-- One group of an IPv6 address: one to four hexadecimal digits. -/
def hexGroup (s : JsString) : Option ℕ :=
  if s != [] && s.length ≤ 4 && s.all (fun u => (hexValue u).isSome) then
    some (digitsValue 16 (fun u => (hexValue u).getD 0) s)
  else none

/-- The groups of some fields; the last may be an IPv4 address, which is two, where `tail` says so. -/
def groups (tail : Bool) : List JsString → Option (List ℕ)
  | [] => some []
  | [p] => ((hexGroup p).map fun g => [g]).or
      (if tail then (v4Value p).map fun v => [v / 65536, v % 65536] else none)
  | p :: ps => (hexGroup p).bind fun g => (groups tail ps).map (g :: ·)

/-- The fields between colons; an empty text has none. -/
def fields (s : JsString) : List JsString := if s == [] then [] else split 0x3a s

/-- What is before and after the first `::`. -/
def doubleColon : JsString → Option (JsString × JsString)
  | u :: v :: s => if u = 0x3a ∧ v = 0x3a then some ([], s) else (doubleColon (v :: s)).map fun p => (u :: p.1, p.2)
  | _ => none

/-- The eight groups of an address without a zone; `::` stands for one group of zeros or more. -/
def v6Groups (s : JsString) : Option (List ℕ) :=
  match doubleColon s with
  | none => (groups true (fields s)).filter fun gs => gs.length == 8
  | some (a, b) => (groups false (fields a)).bind fun xs => (groups true (fields b)).bind fun ys =>
      if xs.length + ys.length ≤ 7 then some (xs ++ List.replicate (8 - xs.length - ys.length) 0 ++ ys) else none

/-- A code unit of a zone: `[0-9a-zA-Z-.:]`. -/
def isZoneUnit (u : UInt16) : Bool :=
  isDigit u || unitIn 'a' 'z' u || unitIn 'A' 'Z' u || u == 0x2d || u == 0x2e || u == 0x3a

/-- The groups and the zone that an IPv6 address stands for. -/
def v6Value (s : JsString) : Option (List ℕ × JsString) :=
  let zone := s.dropWhile (· != 0x25)
  if zone == [] || zone.length != 1 && (zone.drop 1).all isZoneUnit then
    (v6Groups (s.takeWhile (· != 0x25))).map fun gs => (gs, zone)
  else none

/-- `net.isIPv6(s)` -/
def isIPv6 (s : JsString) : Bool := (v6Value s).isSome

/-- `net.isIP(s)`, as a truth value. -/
def isIP (s : JsString) : Bool := isIPv4 s || isIPv6 s

/-! ### Characters -/

/-- A code unit that an address may have in its text; none is white space. -/
def isIpUnit (u : UInt16) : Bool := isZoneUnit u || u == 0x25

private theorem isIpUnit_range {u : UInt16} (h : isIpUnit u = true) :
    u = 0x25 ∨ u = 0x2d ∨ u = 0x2e ∨ (0x30 ≤ u.toNat ∧ u.toNat ≤ 0x3a) ∨ 0x41 ≤ u.toNat ∧ u.toNat ≤ 0x7a := by
  simp only [isIpUnit, isZoneUnit, Bool.or_eq_true, beq_iff_eq, isDigit_iff, unitIn_iff, show 'a'.toNat = 0x61 from rfl,
    show 'z'.toNat = 0x7a from rfl, show 'A'.toNat = 0x41 from rfl, show 'Z'.toNat = 0x5a from rfl] at h
  rcases h with (((((h | h) | h) | h) | h) | rfl) | h
  · exact Or.inr (Or.inr (Or.inr (Or.inl ⟨h.1, by omega⟩)))
  · exact Or.inr (Or.inr (Or.inr (Or.inr (by omega))))
  · exact Or.inr (Or.inr (Or.inr (Or.inr (by omega))))
  · exact Or.inr (Or.inl h)
  · exact Or.inr (Or.inr (Or.inl h))
  · exact Or.inr (Or.inr (Or.inr (Or.inl (by decide))))
  · exact Or.inl h

theorem isSpace_of_isIpUnit {u : UInt16} (h : isIpUnit u = true) : isSpace u = false := by
  rcases isIpUnit_range h with rfl | rfl | rfl | h | h
  · rfl
  · rfl
  · rfl
  · exact isSpace_eq_false (by omega) (by omega)
  · exact isSpace_eq_false (by omega) (by omega)

theorem octet_eq_some {s : JsString} {n : ℕ} (h : octet s = some n) :
    s.all isDigit = true ∧ decimal s = n ∧ n ≤ 255 := by
  unfold octet at h
  split at h
  · rename_i hs
    simp only [Bool.and_eq_true, decide_eq_true_eq] at hs
    obtain rfl := Option.some.inj h
    exact ⟨hs.1.1.2, rfl, hs.2⟩
  · cases h

theorem octets_of_v4Value {s : JsString} {v : ℕ} (h : v4Value s = some v) :
    ∃ a b c d, (split 0x2e s).map octet = [some a, some b, some c, some d] ∧
      v = ((a * 256 + b) * 256 + c) * 256 + d := by
  unfold v4Value at h
  split at h
  · rename_i a b c d hparts
    exact ⟨a, b, c, d, hparts, (Option.some.inj h).symm⟩
  · cases h

theorem octet_of_mem {s p : JsString} {v : ℕ} (h : v4Value s = some v) (hp : p ∈ split 0x2e s) :
    ∃ n, octet p = some n := by
  obtain ⟨a, b, c, d, hparts, -⟩ := octets_of_v4Value h
  have hmem : octet p ∈ (split 0x2e s).map octet := List.mem_map_of_mem hp
  rw [hparts] at hmem
  simp only [List.mem_cons, List.not_mem_nil, or_false] at hmem
  rcases hmem with h | h | h | h
  · exact ⟨a, h⟩
  · exact ⟨b, h⟩
  · exact ⟨c, h⟩
  · exact ⟨d, h⟩

theorem octet_le {s : JsString} {n : ℕ} (hn : some n ∈ (split 0x2e s).map octet) : n ≤ 255 := by
  obtain ⟨p, -, hp⟩ := List.mem_map.1 hn
  obtain ⟨-, -, hle⟩ := octet_eq_some hp
  exact hle

theorem v4Value_lt {s : JsString} {v : ℕ} (h : v4Value s = some v) : v < 2 ^ 32 := by
  obtain ⟨a, b, c, d, hparts, rfl⟩ := octets_of_v4Value h
  have hle : ∀ n, some n ∈ [some a, some b, some c, some d] → n ≤ 255 := by
    intro n hn
    rw [← hparts] at hn
    exact octet_le hn
  have ha := hle a (by simp)
  have hb := hle b (by simp)
  have hc := hle c (by simp)
  have hd := hle d (by simp)
  omega

/-- An IPv4 address is written with digits and points. -/
theorem isDigit_or_point {s : JsString} (h : isIPv4 s = true) {u : UInt16} (hu : u ∈ s) :
    isDigit u = true ∨ u = 0x2e := by
  obtain ⟨v, hv⟩ := Option.isSome_iff_exists.1 h
  rcases mem_split 0x2e hu with hsep | ⟨p, hp, hu⟩
  · exact Or.inr hsep
  · obtain ⟨n, hn⟩ := octet_of_mem hv hp
    exact Or.inl (List.all_eq_true.1 (octet_eq_some hn).1 u hu)

theorem isIpUnit_of_isIPv4 {s : JsString} (h : isIPv4 s = true) {u : UInt16} (hu : u ∈ s) : isIpUnit u = true := by
  rcases isDigit_or_point h hu with hd | rfl
  · simp [isIpUnit, isZoneUnit, hd]
  · rfl

/-- An IPv4 address is written with points. -/
theorem point_mem_of_isIPv4 {s : JsString} (h : isIPv4 s = true) : 0x2e ∈ s := by
  by_contra hmem
  obtain ⟨v, hv⟩ := Option.isSome_iff_exists.1 h
  obtain ⟨a, b, c, d, hparts, -⟩ := octets_of_v4Value hv
  rw [split_of_notMem hmem] at hparts
  simp at hparts

private theorem isIpUnit_of_hexValue {u : UInt16} (h : (hexValue u).isSome = true) : isIpUnit u = true := by
  unfold hexValue at h
  simp only [isIpUnit, isZoneUnit, Bool.or_eq_true, unitIn_iff, show 'a'.toNat = 0x61 from rfl, show 'A'.toNat = 0x41 from rfl,
    show 'z'.toNat = 0x7a from rfl, show 'Z'.toNat = 0x5a from rfl]
  split at h
  · rename_i hd
    simp [hd]
  · split at h
    · rename_i hd
      have := unitIn_iff.1 hd
      simp only [show 'a'.toNat = 0x61 from rfl, show 'f'.toNat = 0x66 from rfl] at this
      omega
    · split at h
      · rename_i hd
        have := unitIn_iff.1 hd
        simp only [show 'A'.toNat = 0x41 from rfl, show 'F'.toNat = 0x46 from rfl] at this
        omega
      · cases h

private theorem isIpUnit_of_hexGroup {s : JsString} {g : ℕ} (h : hexGroup s = some g) :
    ∀ u ∈ s, isIpUnit u = true := by
  unfold hexGroup at h
  split at h
  · rename_i hs
    simp only [Bool.and_eq_true, List.all_eq_true] at hs
    exact fun u hu => isIpUnit_of_hexValue (hs.2 u hu)
  · cases h

private theorem groups_cons {tail : Bool} {p : JsString} {ps : List JsString} (hps : ps = [] → False) :
    groups tail (p :: ps) = (hexGroup p).bind fun g => (groups tail ps).map (g :: ·) := by
  cases ps with
  | nil => exact absurd rfl hps
  | cons q ps => rfl

private theorem isIpUnit_of_groups {tail : Bool} {ps : List JsString} {gs : List ℕ} (h : groups tail ps = some gs) :
    ∀ p ∈ ps, ∀ u ∈ p, isIpUnit u = true := by
  induction ps using groups.induct generalizing gs with
  | case1 => intro p hp; cases hp
  | case2 p =>
    intro q hq
    obtain rfl := List.mem_singleton.1 hq
    simp only [groups, Option.or_eq_some_iff, Option.map_eq_some_iff] at h
    rcases h with ⟨g, hg, -⟩ | ⟨-, h⟩
    · exact isIpUnit_of_hexGroup hg
    · split at h
      · obtain ⟨v, hv, -⟩ := Option.map_eq_some_iff.1 h
        exact fun u hu => isIpUnit_of_isIPv4 (Option.isSome_iff_exists.2 ⟨v, hv⟩) hu
      · cases h
  | case3 p ps hps ih =>
    rw [groups_cons hps] at h
    obtain ⟨g, hg, h⟩ := Option.bind_eq_some_iff.1 h
    obtain ⟨gs', hgs, -⟩ := Option.map_eq_some_iff.1 h
    intro q hq
    rcases List.mem_cons.1 hq with rfl | hq
    · exact isIpUnit_of_hexGroup hg
    · exact ih hgs q hq

private theorem isIpUnit_of_fields {tail : Bool} {s : JsString} {gs : List ℕ} (h : groups tail (fields s) = some gs) :
    ∀ u ∈ s, isIpUnit u = true := by
  intro u hu
  have hne : s ≠ [] := List.ne_nil_of_mem hu
  rw [fields, if_neg (by simpa using hne)] at h
  rcases mem_split 0x3a hu with rfl | ⟨p, hp, hu⟩
  · rfl
  · exact isIpUnit_of_groups h p hp u hu

theorem eq_of_doubleColon {s a b : JsString} (h : doubleColon s = some (a, b)) :
    s = a ++ 0x3a :: 0x3a :: b := by
  induction s using doubleColon.induct generalizing a with
  | case1 u v s huv =>
    rw [doubleColon, if_pos huv, Option.some.injEq, Prod.mk.injEq] at h
    obtain ⟨rfl, rfl⟩ := h
    rw [huv.1, huv.2, List.nil_append]
  | case2 u v s huv ih =>
    rw [doubleColon, if_neg huv, Option.map_eq_some_iff] at h
    obtain ⟨⟨a', b'⟩, hrest, h⟩ := h
    obtain ⟨rfl, rfl⟩ := Prod.mk.inj h
    rw [ih hrest, List.cons_append]
  | case3 s hs => simp [doubleColon] at h

private theorem isIpUnit_of_v6Groups {s : JsString} {gs : List ℕ} (h : v6Groups s = some gs) :
    ∀ u ∈ s, isIpUnit u = true := by
  unfold v6Groups at h
  split at h
  · exact isIpUnit_of_fields (Option.filter_eq_some_iff.1 h).1
  · rename_i a b hab
    obtain ⟨xs, hxs, h⟩ := Option.bind_eq_some_iff.1 h
    obtain ⟨ys, hys, -⟩ := Option.bind_eq_some_iff.1 h
    rw [eq_of_doubleColon hab]
    intro u hu
    rcases List.mem_append.1 hu with hu | hu
    · exact isIpUnit_of_fields hxs u hu
    · rcases List.mem_cons.1 hu with rfl | hu
      · rfl
      · rcases List.mem_cons.1 hu with rfl | hu
        · rfl
        · exact isIpUnit_of_fields hys u hu

theorem isIpUnit_of_isIPv6 {s : JsString} (h : isIPv6 s = true) {u : UInt16} (hu : u ∈ s) : isIpUnit u = true := by
  rw [isIPv6, v6Value] at h
  split at h
  · rename_i hzone
    obtain ⟨_, hgs⟩ := Option.isSome_iff_exists.1 h
    obtain ⟨gs, hgs, -⟩ := Option.map_eq_some_iff.1 hgs
    rw [← List.takeWhile_append_dropWhile (p := (· != 0x25)) (l := s)] at hu
    rcases List.mem_append.1 hu with hu | hu
    · exact isIpUnit_of_v6Groups hgs u hu
    · have hhead := head?_dropWhile (· != 0x25) s
      generalize s.dropWhile (· != 0x25) = zone at hu hhead hzone
      cases zone with
      | nil => cases hu
      | cons v zone =>
        rcases List.mem_cons.1 hu with rfl | hu
        · have : u = 0x25 := by simpa using hhead u rfl
          rw [this]
          rfl
        · simp only [List.cons_ne_nil, beq_iff_eq, Bool.or_eq_true, Bool.and_eq_true, List.drop_succ_cons,
            List.drop_zero, List.all_eq_true, false_or] at hzone
          rw [isIpUnit, hzone.2 u hu, Bool.true_or]
  · cases h

theorem isIpUnit_of_isIP {s : JsString} (h : isIP s = true) {u : UInt16} (hu : u ∈ s) : isIpUnit u = true := by
  rcases Bool.or_eq_true_iff.1 h with h | h
  · exact isIpUnit_of_isIPv4 h hu
  · exact isIpUnit_of_isIPv6 h hu

theorem trim_of_isIP {s : JsString} (h : isIP s = true) : trim s = s :=
  trim_of_all fun _ hu => isSpace_of_isIpUnit (isIpUnit_of_isIP h hu)

/-! ### Lower case -/

private theorem isDigit_lowerUnit (u : UInt16) : isDigit (lowerUnit u) = isDigit u := by
  rw [Bool.eq_iff_iff, isDigit_iff, isDigit_iff, toNat_lowerUnit]
  split <;> omega

private theorem hexValue_lowerUnit (u : UInt16) : hexValue (lowerUnit u) = hexValue u := by
  by_cases hu : unitIn 'A' 'Z' u = true
  · have hrange : 0x41 ≤ u.toNat ∧ u.toNat ≤ 0x5a := unitIn_iff.1 hu
    have hlow : (lowerUnit u).toNat = u.toNat + 0x20 := by rw [toNat_lowerUnit, if_pos hrange]
    have hdigit : isDigit u = false := by
      rw [← Bool.not_eq_true, isDigit_iff]
      omega
    have hsmall : unitIn 'a' 'f' u = false := by
      rw [unitIn_eq_false_iff, show 'a'.toNat = 0x61 from rfl]
      omega
    have hcapital : unitIn 'A' 'F' (lowerUnit u) = false := by
      rw [unitIn_eq_false_iff, show 'F'.toNat = 0x46 from rfl]
      omega
    have hsame : unitIn 'a' 'f' (lowerUnit u) = unitIn 'A' 'F' u := by
      rw [Bool.eq_iff_iff, unitIn_iff, unitIn_iff, hlow, show 'a'.toNat = 0x61 from rfl,
        show 'f'.toNat = 0x66 from rfl, show 'A'.toNat = 0x41 from rfl, show 'F'.toNat = 0x46 from rfl]
      omega
    unfold hexValue
    rw [isDigit_lowerUnit, hdigit, hsmall, hcapital, hsame, hlow, show u.toNat + 0x20 - 0x57 = u.toNat - 0x37 by omega]
    simp only [Bool.false_eq_true, if_false]
  · rw [lowerUnit, if_neg hu]

theorem isZoneUnit_lowerUnit (u : UInt16) : isZoneUnit (lowerUnit u) = isZoneUnit u := by
  by_cases hu : unitIn 'A' 'Z' u = true
  · have hrange : 0x41 ≤ u.toNat ∧ u.toNat ≤ 0x5a := unitIn_iff.1 hu
    have hlow : unitIn 'a' 'z' (lowerUnit u) = true := by
      rw [unitIn_iff, toNat_lowerUnit, if_pos hrange, show 'a'.toNat = 0x61 from rfl, show 'z'.toNat = 0x7a from rfl]
      omega
    simp [isZoneUnit, hu, hlow]
  · rw [lowerUnit, if_neg hu]

private theorem octet_lower (s : JsString) : octet (lower s) = octet s := by
  have hall : (lower s).all isDigit = s.all isDigit := by
    rw [lower, List.all_map]
    congr 1
    exact funext isDigit_lowerUnit
  by_cases hs : s.all isDigit = true
  · have hunit : ∀ u ∈ s, lowerUnit u = u := by
      intro u hu
      have := isDigit_iff.1 (List.all_eq_true.1 hs u hu)
      exact lowerUnit_eq_self (by omega)
    rw [lower, List.map_congr_left hunit, List.map_id']
  · rw [Bool.not_eq_true] at hs
    rw [octet, octet, hall, hs]
    simp

theorem v4Value_lower (s : JsString) : v4Value (lower s) = v4Value s := by
  rw [v4Value, v4Value, split_lower (by decide), List.map_map, show octet ∘ lower = octet from funext octet_lower]

theorem isIPv4_lower (s : JsString) : isIPv4 (lower s) = isIPv4 s := by
  rw [isIPv4, isIPv4, v4Value_lower]

private theorem lower_eq_nil {s : JsString} : lower s = [] ↔ s = [] := List.map_eq_nil_iff

private theorem hexGroup_lower (s : JsString) : hexGroup (lower s) = hexGroup s := by
  have hne : (lower s != []) = (s != []) := by
    rw [Bool.eq_iff_iff, bne_iff_ne, bne_iff_ne, Ne, lower_eq_nil]
  unfold hexGroup
  rw [hne, lower, List.length_map, List.all_map, digitsValue, List.foldl_map]
  simp only [Function.comp_def, hexValue_lowerUnit]
  rfl

private theorem groups_lower (tail : Bool) (ps : List JsString) : groups tail (ps.map lower) = groups tail ps := by
  induction ps using groups.induct with
  | case1 => rfl
  | case2 p => rw [List.map_singleton, groups, groups, hexGroup_lower, v4Value_lower]
  | case3 p ps hps ih =>
    rw [List.map_cons, groups_cons hps, groups_cons (fun h => hps (List.map_eq_nil_iff.1 h)), hexGroup_lower, ih]

theorem fields_lower (s : JsString) : fields (lower s) = (fields s).map lower := by
  unfold fields
  by_cases hs : s = []
  · subst hs
    rfl
  · rw [if_neg (by simpa using lower_eq_nil.not.2 hs), if_neg (by simpa using hs), split_lower (by decide)]

private theorem doubleColon_lower (s : JsString) :
    doubleColon (lower s) = (doubleColon s).map (Prod.map lower lower) := by
  have hcolon (u : UInt16) : lowerUnit u = 0x3a ↔ u = 0x3a := lowerUnit_eq_iff (by decide)
  induction s using doubleColon.induct with
  | case1 u v s huv =>
    rw [doubleColon, if_pos huv, lower, List.map_cons, List.map_cons, doubleColon, if_pos (by rwa [hcolon, hcolon])]
    rfl
  | case2 u v s huv ih =>
    rw [doubleColon, if_neg huv, lower, List.map_cons, List.map_cons, doubleColon, if_neg (by rwa [hcolon, hcolon]),
      ← List.map_cons, show (v :: s).map lowerUnit = lower (v :: s) from rfl, ih, Option.map_map, Option.map_map]
    rfl
  | case3 s hs =>
    cases s with
    | nil => rfl
    | cons u s =>
      cases s with
      | nil => rfl
      | cons v s => exact absurd rfl (hs u v s)

private theorem v6Groups_lower (s : JsString) : v6Groups (lower s) = v6Groups s := by
  unfold v6Groups
  rw [doubleColon_lower]
  cases doubleColon s with
  | none => simp only [Option.map_none, fields_lower, groups_lower]
  | some p => simp only [Option.map_some, Prod.map_apply', fields_lower, groups_lower]

/-- The case of the letters matters in the zone only. -/
theorem v6Value_lower (s : JsString) : v6Value (lower s) = (v6Value s).map fun p => (p.1, lower p.2) := by
  have hzone : (fun u => u != 0x25) ∘ lowerUnit = fun u => u != 0x25 := by
    funext u
    rw [Function.comp_apply, Bool.eq_iff_iff, bne_iff_ne, bne_iff_ne, Ne, Ne, lowerUnit_eq_iff (by decide)]
  have hdrop : (lower s).dropWhile (· != 0x25) = lower (s.dropWhile (· != 0x25)) := by
    rw [lower, List.dropWhile_map, hzone]
    rfl
  have htake : (lower s).takeWhile (· != 0x25) = lower (s.takeWhile (· != 0x25)) := by
    rw [lower, List.takeWhile_map, hzone]
    rfl
  have hunits (z : JsString) : ((lower z).drop 1).all isZoneUnit = (z.drop 1).all isZoneUnit := by
    rw [lower, ← List.map_drop, List.all_map, show isZoneUnit ∘ lowerUnit = isZoneUnit from
      funext isZoneUnit_lowerUnit]
  have hnil (z : JsString) : (lower z == []) = (z == []) := by
    rw [Bool.eq_iff_iff, beq_iff_eq, beq_iff_eq, lower_eq_nil]
  rw [v6Value, v6Value, hdrop, htake, hunits, hnil, v6Groups_lower, lower, List.length_map]
  split
  · rw [Option.map_map]
    rfl
  · rfl

theorem isIPv6_lower (s : JsString) : isIPv6 (lower s) = isIPv6 s := by
  rw [isIPv6, isIPv6, v6Value_lower, Option.isSome_map]

theorem lower_of_isIPv4 {s : JsString} (h : isIPv4 s = true) : lower s = s := by
  have hunit : ∀ u ∈ s, lowerUnit u = u := by
    intro u hu
    rcases isDigit_or_point h hu with hd | rfl
    · have := isDigit_iff.1 hd
      exact lowerUnit_eq_self (by omega)
    · rfl
  rw [lower, List.map_congr_left hunit, List.map_id']

end Servitals
