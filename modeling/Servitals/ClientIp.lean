import Servitals.NetIp

/-!
# Address lists

`hub/lib/clientip.js`: the entries of the whitelist and of the trusted proxies, and which addresses they match; the
whitelist file as the hub reads it, and `valid_addr`, which `servitals-ctl` checks an entry with before it adds it.

What an entry means is `rangeOf`: an IPv4 address or range, or one IPv6 address.
-/

namespace Servitals

/-- `normalizeIp`: the address in lower case; an IPv4 address written IPv4-mapped is the IPv4 address. -/
def normalizeIp (raw : JsString) : Option JsString :=
  let ip := trim raw
  let ip := if js "::ffff:" <+: lower ip ∧ isIPv4 (ip.drop 7) then ip.drop 7 else ip
  if isIP ip then some (lower ip) else none

/-- `v4ToInt` -/
def v4ToInt (ip : JsString) : BitVec 32 :=
  match (split 0x2e ip).map decimal with
  | [a, b, c, d] => BitVec.ofNat 32 a <<< 24 + BitVec.ofNat 32 b <<< 16 + BitVec.ofNat 32 c <<< 8 + BitVec.ofNat 32 d
  | _ => 0

/-- An entry of an address list. -/
inductive CidrEntry
  | v4 (net mask : BitVec 32)
  | v6 (ip : JsString)
  deriving DecidableEq

/-- The bits of a prefix part: `Number` of it, when that is an integer from 0 to 32. -/
def prefixBits (bitsStr : JsString) : Option ℕ :=
  (jsNumber bitsStr).bind fun r => if r.den = 1 ∧ 0 ≤ r ∧ r ≤ 32 then some r.num.toNat else none

/-- `bits === 0 ? 0 : (~0 << (32 - bits)) >>> 0` -/
def maskOf (bits : ℕ) : BitVec 32 := if bits = 0 then 0 else BitVec.allOnes 32 <<< (32 - bits)

/-- The entry of an address and of what stands after its first `/`. -/
def entryOf (ip : JsString) (bitsStr : Option JsString) : Option CidrEntry :=
  if isIPv4 ip then
    (match bitsStr with
      | none => some 32
      | some b => prefixBits b).map fun bits => .v4 (v4ToInt ip &&& maskOf bits) (maskOf bits)
  else if bitsStr = none ∨ bitsStr = some (js "128") then some (.v6 ip)
  else none

/-- One item of an address list; an empty one, a comment and one that is not understood have no entry. -/
def parseEntry (raw : JsString) : Option CidrEntry :=
  let s := trim raw
  if s == [] || s.head? == some 0x23 then none
  else match split 0x2f s with
    | [] => none
    | addr :: rest => (normalizeIp addr).bind fun ip => entryOf ip rest.head?

/-- `parseCidrList` of a list. -/
def parseCidrList (items : List JsString) : List CidrEntry := items.filterMap parseEntry

/-- Does an entry match an address? -/
def CidrEntry.covers (ip : JsString) : CidrEntry → Bool
  | .v4 net mask => isIPv4 ip && (v4ToInt ip &&& mask) == net
  | .v6 ip' => !isIPv4 ip && ip' == ip

/-- `matchesAny` -/
def matchesAny (ip : JsString) (entries : List CidrEntry) : Bool := ip != [] && entries.any (CidrEntry.covers ip)

/-! ### The whitelist file -/

/-- `readWL`: the lines that are neither empty nor comments. -/
def readWL (text : JsString) : List JsString :=
  ((split 0x0a text).map trim).filter fun l => l != [] && l.head? != some 0x23

/-- `^([0-9]{1,3})\.([0-9]{1,3})\.([0-9]{1,3})\.([0-9]{1,3})$`, each part at most 255. -/
def ctlIPv4 (a : JsString) : Bool :=
  let parts := split 0x2e a
  parts.length == 4 && parts.all fun p => p != [] && p.length ≤ 3 && p.all isDigit && decimal p ≤ 255

/-- `^[0-9A-Fa-f:]+$` with two colons at least. -/
def ctlIPv6 (a : JsString) : Bool :=
  a.all (fun u => isDigit u || unitIn 'a' 'f' u || unitIn 'A' 'F' u || u == 0x3a) && 2 ≤ a.count 0x3a

/-- `valid_addr` of `servitals-ctl`. -/
def validAddr (s : JsString) : Bool :=
  let a := s.takeWhile (· != 0x2f)
  let bits := (s.dropWhile (· != 0x2f)).drop 1
  if ctlIPv4 a then bits == [] || (bits.length ≤ 2 && bits.all isDigit && decimal bits ≤ 32 &&
    (bits.length == 1 || bits.head? != some 0x30))
  else if ctlIPv6 a then bits == [] || bits == js "128"
  else false

/-! ### What an entry means -/

/-- A set of addresses: those of 32 bits that agree with `base` in the first `len`, or one of 128 bits. -/
inductive IpRange
  | v4 (base len : ℕ)
  | v6 (addr : List ℕ × JsString)

/-- The text of an IPv4 address, written plainly or IPv4-mapped. -/
def plainV4 (a : JsString) : Option JsString :=
  if isIPv4 a then some a
  else if js "::ffff:" <+: lower a ∧ isIPv4 (a.drop 7) then some (a.drop 7)
  else none

/-- A decimal prefix length: digits, at most 32. -/
def prefixLength (b : JsString) : Option ℕ :=
  if b != [] && b.all isDigit && decimal b ≤ 32 then some (decimal b) else none

/-- What an entry means: an IPv4 address with or without a decimal prefix length, or an IPv6 address with or without
`/128`; any other text has no meaning. -/
def rangeOf (raw : JsString) : Option IpRange :=
  match split 0x2f (trim raw) with
  | [a] => match plainV4 a with
    | some ip => (v4Value ip).map fun v => .v4 v 32
    | none => (v6Value (lower a)).map .v6
  | [a, b] => match plainV4 a with
    | some ip => (prefixLength b).bind fun len => (v4Value ip).map fun v => .v4 v len
    | none => if b = js "128" then (v6Value (lower a)).map .v6 else none
  | _ => none

/-- Is the address a text stands for in the range? -/
def IpRange.Mem (ip : JsString) : IpRange → Prop
  | .v4 base len => ∃ v, v4Value ip = some v ∧ v / 2 ^ (32 - len) = base / 2 ^ (32 - len)
  | .v6 addr => isIPv4 ip = false ∧ v6Value ip = some addr

/-- The address is one of those the entry means. -/
def Denotes (raw ip : JsString) : Prop := ∃ r, rangeOf raw = some r ∧ r.Mem ip

/-- The entry is taken only when it has a meaning, and it matches the address exactly when it means it. -/
def MatchesAsMeant (raw ip : JsString) : Prop :=
  (parseCidrList [raw] ≠ [] → (rangeOf raw).isSome = true) ∧
    (matchesAny ip (parseCidrList [raw]) = true ↔ Denotes raw ip)

/-! ### Where the entry is read otherwise -/

/-- An entry with a `/` whose first part is an address but that has no meaning, and is taken all the same: `Number`
reads a prefix part that is no decimal one (nothing, white space, `0x10`, `1e1`), further parts are dropped, and white
space around the address is. -/
def oddSuffix (raw : JsString) : Bool :=
  (trim raw).head? != some 0x23 &&
  match split 0x2f (trim raw) with
  | addr :: b :: more =>
    match normalizeIp addr with
    | some ip =>
      if isIPv4 ip then (prefixBits b).isSome && (more != [] || trim addr != addr || prefixLength b == none)
      else b == js "128" && (more != [] || trim addr != addr)
    | none => false
  | _ => false

/-- The entry and the text are one IPv6 address, spelled in two ways: entries are compared as text. -/
def Respelled (raw ip : JsString) : Prop :=
  isIPv4 ip = false ∧ lower ((split 0x2f (trim raw)).headD []) ≠ ip ∧
    ∃ addr, rangeOf raw = some (.v6 addr) ∧ v6Value ip = some addr

/-! ### The address part -/

/-- Eight code units of an IPv4-mapped address, then the IPv4 address. -/
private theorem isIpUnit_of_mapped {a : JsString} (hpre : js "::ffff:" <+: lower a) (h4 : isIPv4 (a.drop 7) = true) :
    ∀ u ∈ a, isIpUnit u = true := by
  intro u hu
  rw [← List.take_append_drop 7 a] at hu
  rcases List.mem_append.1 hu with hu | hu
  · have hlow : lowerUnit u ∈ lower (a.take 7) := List.mem_map_of_mem hu
    rw [lower, List.map_take, show a.map lowerUnit = lower a from rfl,
      show (lower a).take 7 = js "::ffff:" from (List.prefix_iff_eq_take.1 hpre).symm] at hlow
    have hunit : isIpUnit (lowerUnit u) = true := by
      revert hlow
      generalize lowerUnit u = v
      revert v
      simp only [show js "::ffff:" = [0x3a, 0x3a, 0x66, 0x66, 0x66, 0x66, 0x3a] by decide]
      simp only [List.mem_cons, List.not_mem_nil, or_false]
      rintro v (rfl | rfl | rfl | rfl | rfl | rfl | rfl) <;> rfl
    have hsep : lowerUnit u = 0x25 ↔ u = 0x25 := lowerUnit_eq_iff (by decide)
    rw [isIpUnit, Bool.or_eq_true, isZoneUnit_lowerUnit, beq_iff_eq, hsep] at hunit
    rwa [isIpUnit, Bool.or_eq_true, beq_iff_eq]
  · exact isIpUnit_of_isIPv4 h4 hu

private theorem not_mapped_of_isIPv4 {a : JsString} (h4 : isIPv4 a = true) : ¬ js "::ffff:" <+: lower a := by
  rintro ⟨t, ht⟩
  rw [lower_of_isIPv4 h4] at ht
  have hcolon : 0x3a ∈ a := by
    rw [← ht, show js "::ffff:" = [0x3a, 0x3a, 0x66, 0x66, 0x66, 0x66, 0x3a] by decide]
    simp
  rcases isDigit_or_point h4 hcolon with h | h <;> cases h

/-- An address part is an IPv4 address, plainly or IPv4-mapped, an IPv6 address, or no address at all. -/
private theorem address_cases {a : JsString} (ha : trim a = a) :
    (∃ ip, plainV4 a = some ip ∧ isIPv4 ip = true ∧ normalizeIp a = some ip) ∨
    (plainV4 a = none ∧ isIPv6 a = true ∧ isIPv4 (lower a) = false ∧ normalizeIp a = some (lower a)) ∨
    plainV4 a = none ∧ isIPv6 a = false ∧ normalizeIp a = none := by
  have hnorm : normalizeIp a =
      let ip := if js "::ffff:" <+: lower a ∧ isIPv4 (a.drop 7) then a.drop 7 else a
      if isIP ip then some (lower ip) else none := by rw [normalizeIp, ha]
  by_cases h4 : isIPv4 a = true
  · have hm : ¬(js "::ffff:" <+: lower a ∧ isIPv4 (a.drop 7) = true) := fun h => not_mapped_of_isIPv4 h4 h.1
    rw [if_neg hm] at hnorm
    exact Or.inl ⟨a, if_pos h4, h4, by simp [hnorm, isIP, h4, lower_of_isIPv4 h4]⟩
  · rw [plainV4, if_neg h4]
    by_cases hm : js "::ffff:" <+: lower a ∧ isIPv4 (a.drop 7) = true
    · rw [if_pos hm] at hnorm ⊢
      exact Or.inl ⟨_, rfl, hm.2, by simp [hnorm, isIP, hm.2, lower_of_isIPv4 hm.2]⟩
    · rw [if_neg hm] at hnorm ⊢
      rw [Bool.not_eq_true] at h4
      cases h6 : isIPv6 a with
      | true => exact Or.inr (Or.inl ⟨rfl, rfl, by rw [isIPv4_lower, h4], by simp [hnorm, isIP, h6]⟩)
      | false => exact Or.inr (Or.inr ⟨rfl, rfl, by simp [hnorm, isIP, h4, h6]⟩)

/-- An address has no white space around it. -/
private theorem no_address_of_trim_ne {a : JsString} (ha : trim a ≠ a) : plainV4 a = none ∧ isIPv6 a = false := by
  have h4 : isIPv4 a = false := by
    rw [← Bool.not_eq_true]
    exact fun h => ha (trim_of_isIP (by simp [isIP, h]))
  refine ⟨?_, ?_⟩
  · rw [plainV4, if_neg (by simp [h4]), if_neg]
    rintro ⟨hpre, hmapped⟩
    exact ha (trim_of_all fun u hu => isSpace_of_isIpUnit (isIpUnit_of_mapped hpre hmapped u hu))
  · rw [← Bool.not_eq_true]
    exact fun h => ha (trim_of_isIP (by simp [isIP, h]))

private theorem v6Value_lower_eq_none {a : JsString} : v6Value (lower a) = none ↔ isIPv6 a = false := by
  rw [← isIPv6_lower, isIPv6, Option.isSome_eq_false_iff, Option.isNone_iff_eq_none]

/-! ### Masks -/

private theorem maskOf_eq {bits : ℕ} : maskOf bits = BitVec.allOnes 32 <<< (32 - bits) := by
  unfold maskOf
  split
  · subst bits
    rfl
  · rfl

/-- Two numbers agree under the mask of a prefix length when they agree in that many bits. -/
theorem and_maskOf_eq_iff {x y : BitVec 32} {bits : ℕ} :
    x &&& maskOf bits = y &&& maskOf bits ↔ x.toNat / 2 ^ (32 - bits) = y.toNat / 2 ^ (32 - bits) := by
  have hshift (z : BitVec 32) : z &&& maskOf bits = (z >>> (32 - bits)) <<< (32 - bits) := by
    rw [maskOf_eq]
    ext i hi
    simp only [BitVec.getElem_and, BitVec.getElem_shiftLeft, BitVec.getElem_ushiftRight]
    by_cases h : i < 32 - bits
    · simp [h]
    · simp only [h, decide_false, Bool.not_false, Bool.true_and, BitVec.getElem_allOnes, Bool.and_true]
      rw [show 32 - bits + (i - (32 - bits)) = i by omega, BitVec.getLsbD_eq_getElem hi]
  have htoNat (z : BitVec 32) : ((z >>> (32 - bits)) <<< (32 - bits)).toNat = z.toNat / 2 ^ (32 - bits) * 2 ^ (32 - bits) := by
    rw [BitVec.toNat_shiftLeft, BitVec.toNat_ushiftRight, Nat.shiftRight_eq_div_pow, Nat.shiftLeft_eq]
    exact Nat.mod_eq_of_lt (lt_of_le_of_lt (Nat.div_mul_le_self _ _) z.isLt)
  rw [hshift, hshift, ← BitVec.toNat_inj, htoNat, htoNat]
  exact Nat.mul_left_inj (by positivity)

/-- The number of an IPv4 address is the one it stands for. -/
private theorem v4ToInt_eq {ip : JsString} {v : ℕ} (h : v4Value ip = some v) : (v4ToInt ip).toNat = v := by
  obtain ⟨a, b, c, d, hparts, rfl⟩ := octets_of_v4Value h
  unfold v4ToInt
  generalize split 0x2e ip = parts at hparts
  rcases parts with _ | ⟨p, _ | ⟨q, _ | ⟨r, _ | ⟨t, _ | ⟨x, parts⟩⟩⟩⟩⟩ <;>
    simp only [List.map_cons, List.map_nil, List.cons.injEq, reduceCtorEq, and_true, and_false] at hparts
  obtain ⟨-, hp, hpa⟩ := octet_eq_some hparts.1
  obtain ⟨-, hq, hqb⟩ := octet_eq_some hparts.2.1
  obtain ⟨-, hr, hrc⟩ := octet_eq_some hparts.2.2.1
  obtain ⟨-, ht, htd⟩ := octet_eq_some hparts.2.2.2
  simp only [List.map_cons, List.map_nil, hp, hq, hr, ht, BitVec.toNat_add, BitVec.toNat_shiftLeft,
    BitVec.toNat_ofNat, Nat.shiftLeft_eq]
  omega

/-- A decimal prefix length is the number that `Number` reads. -/
theorem prefixBits_of_prefixLength {b : JsString} {len : ℕ} (h : prefixLength b = some len) :
    prefixBits b = some len := by
  unfold prefixLength at h
  split at h
  · rename_i hb
    simp only [Bool.and_eq_true, bne_iff_ne, decide_eq_true_eq] at hb
    obtain rfl := Option.some.inj h
    rw [prefixBits, jsNumber_digits hb.1.1 hb.1.2 hb.2, Option.bind_some, if_pos]
    · simp
    · exact ⟨by simp, by positivity, by exact_mod_cast hb.2⟩
  · cases h

/-! ### What an entry is read as -/

private theorem isIpUnit_of_normalizeIp {a : JsString} (ha : trim a = a) (hn : normalizeIp a ≠ none) :
    ∀ u ∈ a, isIpUnit u = true := by
  rcases address_cases ha with ⟨ip, h4, -, -⟩ | ⟨-, h6, -, -⟩ | ⟨-, -, hnone⟩
  · unfold plainV4 at h4
    split at h4
    · rename_i h
      exact fun u hu => isIpUnit_of_isIPv4 h hu
    · split at h4
      · rename_i h
        exact isIpUnit_of_mapped h.1 h.2
      · cases h4
  · exact fun u hu => isIpUnit_of_isIPv6 h6 hu
  · exact absurd hnone hn

private theorem parseEntry_eq {raw a : JsString} {rest : List JsString} (hs : split 0x2f (trim raw) = a :: rest)
    (hne : trim raw ≠ []) (hhash : (trim raw).head? ≠ some 0x23) :
    parseEntry raw = (normalizeIp a).bind fun ip => entryOf ip rest.head? := by
  unfold parseEntry
  rw [if_neg (by simp [hne, hhash]), hs]

/-- An item whose first part is an address is neither empty nor a comment. -/
private theorem not_comment {raw a : JsString} {rest : List JsString} (hs : split 0x2f (trim raw) = a :: rest)
    (ha : trim a = a) (hn : normalizeIp a ≠ none) : trim raw ≠ [] ∧ (trim raw).head? ≠ some 0x23 := by
  cases a with
  | nil => exact absurd (by decide) hn
  | cons u a =>
    have hu : isIpUnit u = true := isIpUnit_of_normalizeIp ha hn u List.mem_cons_self
    have hhead : (trim raw).head? = some u := by
      rcases split_eq_cons hs with ⟨-, h, -⟩ | ⟨b, h, -, -⟩ <;> rw [h] <;> rfl
    refine ⟨fun h => ?_, ?_⟩
    · rw [h] at hhead
      cases hhead
    · rw [hhead]
      rintro ⟨⟩
      exact absurd hu (by decide)

/-- A text with a meaning has an address for its first part, without white space around it. -/
private theorem rangeOf_address {raw : JsString} {r : IpRange} (h : rangeOf raw = some r) :
    ∃ a rest, split 0x2f (trim raw) = a :: rest ∧ trim a = a ∧ normalizeIp a ≠ none := by
  cases hs : split 0x2f (trim raw) with
  | nil => exact absurd hs (split_ne_nil _ _)
  | cons a rest =>
    have hnone (h4 : plainV4 a = none) (h6 : isIPv6 a = false) : rangeOf raw = none := by
      have h6 := v6Value_lower_eq_none.2 h6
      unfold rangeOf
      rw [hs]
      rcases rest with _ | ⟨b, _ | ⟨c, rest⟩⟩
      · simp only [h4, h6, Option.map_none]
      · simp only [h4, h6, Option.map_none, ite_self]
      · rfl
    have ha : trim a = a := by
      by_contra ha
      obtain ⟨h4, h6⟩ := no_address_of_trim_ne ha
      rw [hnone h4 h6] at h
      cases h
    refine ⟨a, rest, rfl, ha, fun hn => ?_⟩
    rcases address_cases ha with ⟨ip, -, -, h'⟩ | ⟨-, -, -, h'⟩ | ⟨h4, h6, -⟩
    · rw [hn] at h'
      cases h'
    · rw [hn] at h'
      cases h'
    · rw [hnone h4 h6] at h
      cases h

/-- An IPv4 entry matches the addresses of its range. -/
private theorem covers_v4 {ip0 ip : JsString} {v len : ℕ} (hv : v4Value ip0 = some v) :
    CidrEntry.covers ip (.v4 (v4ToInt ip0 &&& maskOf len) (maskOf len)) = true ↔ (IpRange.v4 v len).Mem ip := by
  simp only [CidrEntry.covers, Bool.and_eq_true, beq_iff_eq, and_maskOf_eq_iff, v4ToInt_eq hv, IpRange.Mem]
  constructor
  · rintro ⟨h4, h⟩
    obtain ⟨w, hw⟩ := Option.isSome_iff_exists.1 h4
    exact ⟨w, hw, by rwa [v4ToInt_eq hw] at h⟩
  · rintro ⟨w, hw, h⟩
    exact ⟨Option.isSome_iff_exists.2 ⟨w, hw⟩, by rwa [v4ToInt_eq hw]⟩

/-- An entry with a meaning is taken, and what it matches is what it means but for other spellings of an IPv6
address. -/
private theorem parseEntry_of_rangeOf {raw : JsString} {r : IpRange} (h : rangeOf raw = some r) :
    oddSuffix raw = false ∧ ∃ e, parseEntry raw = some e ∧
      ∀ ip, (e.covers ip = true ↔ r.Mem ip) ↔ ¬ Respelled raw ip := by
  obtain ⟨a, rest, hs, ha, hn⟩ := rangeOf_address h
  obtain ⟨hne, hhash⟩ := not_comment hs ha hn
  have hrange := h
  unfold rangeOf at hrange
  unfold oddSuffix
  rw [parseEntry_eq hs hne hhash]
  rw [hs] at hrange ⊢
  have hv6 {addr : List ℕ × JsString} (hr : r = .v6 addr) (haddr : v6Value (lower a) = some addr) (ip : JsString) :
      (CidrEntry.covers ip (.v6 (lower a)) = true ↔ r.Mem ip) ↔ ¬ Respelled raw ip := by
    have hresp : Respelled raw ip ↔ isIPv4 ip = false ∧ lower a ≠ ip ∧ v6Value ip = some addr := by
      rw [Respelled, hs, h, hr]
      simp
    rw [hr, hresp, IpRange.Mem, CidrEntry.covers, Bool.and_eq_true, Bool.not_eq_true', beq_iff_eq]
    by_cases hip : lower a = ip
    · rw [← hip]
      simp [haddr]
    · simp [hip]
  rcases address_cases ha with ⟨ip0, h4, hip0, hnorm⟩ | ⟨h4, h6, hip0, hnorm⟩ | ⟨-, -, hnone⟩
  · obtain ⟨v, hv⟩ := Option.isSome_iff_exists.1 hip0
    have hother (len : ℕ) (hr : r = .v4 v len) (ip : JsString) : ¬ Respelled raw ip := by
      rintro ⟨-, -, addr, haddr, -⟩
      rw [h, hr] at haddr
      cases haddr
    rcases rest with _ | ⟨b, _ | ⟨c, rest⟩⟩
    · simp only [h4, hv, Option.map_some, Option.some.injEq] at hrange
      refine ⟨by simp, .v4 (v4ToInt ip0 &&& maskOf 32) (maskOf 32), by simp [hnorm, hip0, entryOf], fun ip => ?_⟩
      exact iff_of_true (hrange ▸ covers_v4 hv) (hother 32 hrange.symm ip)
    · simp only [h4, hv, Option.map_some, Option.bind_eq_some_iff, Option.some.injEq] at hrange
      obtain ⟨len, hlen, hrange⟩ := hrange
      refine ⟨by simp [hnorm, hip0, hlen, ha], .v4 (v4ToInt ip0 &&& maskOf len) (maskOf len), ?_, fun ip => ?_⟩
      · simp [hnorm, hip0, prefixBits_of_prefixLength hlen, entryOf]
      · exact iff_of_true (hrange ▸ covers_v4 hv) (hother len hrange.symm ip)
    · cases hrange
  · rcases rest with _ | ⟨b, _ | ⟨c, rest⟩⟩
    · simp only [h4, Option.map_eq_some_iff] at hrange
      obtain ⟨addr, haddr, hr⟩ := hrange
      exact ⟨by simp, .v6 (lower a), by simp [hnorm, hip0, entryOf], hv6 hr.symm haddr⟩
    · simp only [h4] at hrange
      split at hrange
      · rename_i hb
        obtain ⟨addr, haddr, hr⟩ := Option.map_eq_some_iff.1 hrange
        exact ⟨by simp [hnorm, hip0, ha], .v6 (lower a), by simp [hnorm, hip0, hb, entryOf], hv6 hr.symm haddr⟩
      · cases hrange
    · cases hrange
  · exact absurd hnone hn

/-- A text without a meaning is taken exactly when its suffix is odd. -/
private theorem oddSuffix_of_rangeOf_none {raw : JsString} (h : rangeOf raw = none) :
    oddSuffix raw = (parseEntry raw).isSome := by
  cases hs : split 0x2f (trim raw) with
  | nil => exact absurd hs (split_ne_nil _ _)
  | cons a rest =>
    by_cases hcomment : trim raw = [] ∨ (trim raw).head? = some 0x23
    · have hparse : parseEntry raw = none := by
        unfold parseEntry
        rw [if_pos (by simpa using hcomment)]
      rw [hparse, oddSuffix]
      rcases hcomment with hnil | hhash
      · rw [hnil]
        rfl
      · simp [hhash]
    · rw [not_or] at hcomment
      rw [parseEntry_eq hs hcomment.1 hcomment.2]
      unfold oddSuffix
      unfold rangeOf at h
      rw [hs] at h ⊢
      simp only [bne_iff_ne.2 hcomment.2, Bool.true_and]
      cases hn : normalizeIp a with
      | none => cases rest <;> simp [hn]
      | some ip =>
        rcases rest with _ | ⟨b, more⟩
        · have ha : trim a = a := by
            rcases split_eq_cons hs with ⟨-, h, -⟩ | ⟨b, -, -, h⟩
            · rw [← h, trim_trim]
            · exact absurd h (split_ne_nil _ _)
          rcases address_cases ha with ⟨ip0, h4, hip0, -⟩ | ⟨h4, h6, -, -⟩ | ⟨-, -, hnone⟩
          · obtain ⟨v, hv⟩ := Option.isSome_iff_exists.1 hip0
            simp [h4, hv] at h
          · simp [h4, v6Value_lower_eq_none, h6] at h
          · simp [hn] at hnone
        · by_cases hplain : more = [] ∧ trim a = a
          · obtain ⟨rfl, ha⟩ := hplain
            rcases address_cases ha with ⟨ip0, h4, hip0, hnorm⟩ | ⟨h4, h6, hip0, hnorm⟩ | ⟨-, -, hnone⟩
            · obtain ⟨v, hv⟩ := Option.isSome_iff_exists.1 hip0
              obtain rfl := Option.some.inj (hn.symm.trans hnorm)
              have hlen : prefixLength b = none := by
                by_contra hlen
                obtain ⟨len, hlen⟩ := Option.ne_none_iff_exists'.1 hlen
                simp [h4, hv, hlen] at h
              simp [hn, hip0, ha, hlen, entryOf]
            · obtain rfl := Option.some.inj (hn.symm.trans hnorm)
              have hb : b ≠ js "128" := by
                rintro rfl
                simp [h4, v6Value_lower_eq_none, h6] at h
              simp [hn, hip0, hb, entryOf]
            · simp [hn] at hnone
          · have hodd : (more != [] || trim a != a) = true := by
              rw [not_and_or] at hplain
              simpa using hplain
            by_cases h4 : isIPv4 ip = true
            · simp only [hn, h4, if_true, hodd, Bool.true_or, Bool.and_true]
              simp [entryOf, h4]
            · simp only [hn, h4, hodd, Bool.and_true]
              by_cases hb : b = js "128" <;> simp [entryOf, h4, hb]

/-- A list matches an address when one of its items does. -/
theorem matchesAny_iff (ip : JsString) (items : List JsString) :
    matchesAny ip (parseCidrList items) = true ↔ ∃ raw ∈ items, matchesAny ip (parseCidrList [raw]) = true := by
  simp only [matchesAny, Bool.and_eq_true, bne_iff_ne, List.any_eq_true, parseCidrList, List.mem_filterMap,
    List.mem_singleton]
  constructor
  · rintro ⟨hne, e, ⟨raw, hraw, he⟩, hcov⟩
    exact ⟨raw, hraw, hne, e, ⟨raw, rfl, he⟩, hcov⟩
  · rintro ⟨raw, hraw, hne, e, ⟨_, rfl, he⟩, hcov⟩
    exact ⟨hne, e, ⟨_, hraw, he⟩, hcov⟩

/-- **Entries mean what they say.** -/
private theorem matchesAsMeant_iff (raw ip : JsString) :
    MatchesAsMeant raw ip ↔ oddSuffix raw = false ∧ ¬ Respelled raw ip := by
  have hlist : parseCidrList [raw] = (parseEntry raw).toList := by
    cases h : parseEntry raw <;> simp [parseCidrList, h]
  cases hr : rangeOf raw with
  | none =>
    have hresp : ¬ Respelled raw ip := by
      rintro ⟨-, -, addr, h, -⟩
      rw [hr] at h
      cases h
    have hden : ¬ Denotes raw ip := by
      rintro ⟨r, h, -⟩
      rw [hr] at h
      cases h
    rw [MatchesAsMeant, hr, oddSuffix_of_rangeOf_none hr, hlist]
    cases parseEntry raw with
    | none => simp [hresp, hden, matchesAny]
    | some e => simp
  | some r =>
    obtain ⟨hodd, e, he, hcov⟩ := parseEntry_of_rangeOf hr
    have hden : Denotes raw ip ↔ r.Mem ip := by simp [Denotes, hr]
    rw [MatchesAsMeant, hr, hlist, he, hodd, hden]
    simp only [Option.isSome_some, implies_true, true_and]
    by_cases hip : ip = []
    · subst hip
      have hmem : ¬ r.Mem [] := by
        cases r with
        | v4 base len => rintro ⟨v, hv, -⟩; cases hv
        | v6 addr => rintro ⟨-, hv⟩; cases hv
      have hresp : ¬ Respelled raw [] := by
        rintro ⟨-, -, addr, -, hv⟩
        cases hv
      simp [matchesAny, hmem, hresp]
    · rw [← hcov ip]
      simp [matchesAny, hip]

/-! ### What `servitals-ctl` lets in -/

private theorem ctlIPv4_units {a : JsString} (h : ctlIPv4 a = true) {u : UInt16} (hu : u ∈ a) :
    isDigit u = true ∨ u = 0x2e := by
  simp only [ctlIPv4, Bool.and_eq_true, List.all_eq_true] at h
  rcases mem_split 0x2e hu with hsep | ⟨p, hp, hu⟩
  · exact Or.inr hsep
  · exact Or.inl ((h.2 p hp).1.2 u hu)

private theorem ctlIPv6_units {a : JsString} (h : ctlIPv6 a = true) {u : UInt16} (hu : u ∈ a) :
    isIpUnit u = true ∧ u ≠ 0x2e := by
  simp only [ctlIPv6, Bool.and_eq_true, List.all_eq_true, Bool.or_eq_true, beq_iff_eq, unitIn_iff,
    show 'a'.toNat = 0x61 from rfl, show 'f'.toNat = 0x66 from rfl, show 'A'.toNat = 0x41 from rfl,
    show 'F'.toNat = 0x46 from rfl] at h
  refine ⟨?_, ?_⟩
  · simp only [isIpUnit, isZoneUnit, Bool.or_eq_true, beq_iff_eq, unitIn_iff, show 'a'.toNat = 0x61 from rfl,
      show 'z'.toNat = 0x7a from rfl, show 'A'.toNat = 0x41 from rfl, show 'Z'.toNat = 0x5a from rfl]
    rcases h.1 u hu with ((h | h) | h) | h
    · tauto
    · omega
    · omega
    · tauto
  · rintro rfl
    rcases h.1 _ hu with ((h | h) | h) | h
    · exact absurd h (by decide)
    · exact absurd h.1 (by decide)
    · exact absurd h.1 (by decide)
    · exact absurd h (by decide)

private theorem plainV4_eq_some {a ip : JsString} (h : plainV4 a = some ip) :
    0x2e ∈ a ∧ (isIPv4 a = true ∨ 0x3a ∈ a) := by
  unfold plainV4 at h
  split at h
  · rename_i h4
    exact ⟨point_mem_of_isIPv4 h4, Or.inl h4⟩
  · split at h
    · rename_i hm
      refine ⟨List.mem_of_mem_drop (point_mem_of_isIPv4 hm.2), Or.inr ?_⟩
      obtain ⟨t, ht⟩ := hm.1
      have hcolon : 0x3a ∈ lower a := by
        rw [← ht, show js "::ffff:" = [0x3a, 0x3a, 0x66, 0x66, 0x66, 0x66, 0x3a] by decide]
        simp
      obtain ⟨u, hu, hlow⟩ := List.mem_map.1 hcolon
      rwa [← (lowerUnit_eq_iff (by decide)).1 hlow]
    · cases h

/-- What an entry of `valid_addr` is made of: an address, and behind a `/` nothing or a plain prefix part. -/
private theorem validAddr_shape {s : JsString} (h : validAddr s = true) :
    ∃ a, (ctlIPv4 a = true ∨ ctlIPv6 a = true) ∧
      (s = a ∨ s = a ++ [0x2f] ∨ ∃ bits, s = a ++ 0x2f :: bits ∧
        bits ≠ [] ∧ bits.all isDigit = true ∧ (ctlIPv4 a = true → prefixLength bits ≠ none)) := by
  have hcut := List.takeWhile_append_dropWhile (p := (· != 0x2f)) (l := s)
  have hhead := head?_dropWhile (· != 0x2f) s
  unfold validAddr at h
  generalize s.takeWhile (· != 0x2f) = a at h hcut
  generalize s.dropWhile (· != 0x2f) = rest at h hcut hhead
  have hctl : ctlIPv4 a = true ∨ ctlIPv6 a = true := by
    by_contra hn
    rw [not_or] at hn
    simp [hn.1, hn.2] at h
  refine ⟨a, hctl, ?_⟩
  cases rest with
  | nil => exact Or.inl (by rw [← hcut, List.append_nil])
  | cons u bits =>
    obtain rfl : u = 0x2f := by simpa using hhead u rfl
    refine Or.inr ?_
    by_cases hbits : bits = []
    · exact Or.inl (by rw [← hcut, hbits])
    · refine Or.inr ⟨bits, hcut.symm, hbits, ?_⟩
      rw [List.drop_succ_cons, List.drop_zero] at h
      by_cases h4 : ctlIPv4 a = true
      · simp only [h4, if_true, Bool.or_eq_true, beq_iff_eq, hbits, false_or, Bool.and_eq_true,
          decide_eq_true_eq] at h
        refine ⟨h.1.1.2, fun _ => ?_⟩
        rw [prefixLength, if_pos (by simp [hbits, h.1.1.2, h.1.2])]
        exact Option.some_ne_none _
      · simp only [h4, Bool.false_eq_true, if_false, hctl.resolve_left h4, if_true, Bool.or_eq_true, beq_iff_eq,
          hbits, false_or] at h
        exact ⟨by rw [h]; decide, fun h' => absurd h' h4⟩

/-- An address with a prefix part that nothing is wrong with but perhaps the prefix part. -/
private theorem oddSuffix_pair {a b : JsString} (ha : ∀ u ∈ a, isIpUnit u = true) (hb : ∀ u ∈ b, isIpUnit u = true) :
    oddSuffix (a ++ 0x2f :: b) = true ↔
      ∃ ip, plainV4 a = some ip ∧ (prefixBits b).isSome = true ∧ prefixLength b = none := by
  have hslash {c : JsString} (hc : ∀ u ∈ c, isIpUnit u = true) : 0x2f ∉ c := fun hm => absurd (hc _ hm) (by decide)
  have htrima : trim a = a := trim_of_all fun u hu => isSpace_of_isIpUnit (ha u hu)
  have htrim : trim (a ++ 0x2f :: b) = a ++ 0x2f :: b := by
    refine trim_of_all fun u hu => ?_
    rcases List.mem_append.1 hu with hu | hu
    · exact isSpace_of_isIpUnit (ha u hu)
    · rcases List.mem_cons.1 hu with rfl | hu
      · rfl
      · exact isSpace_of_isIpUnit (hb u hu)
  have hhead : (a ++ 0x2f :: b).head? ≠ some 0x23 := by
    cases a with
    | nil => rintro ⟨⟩
    | cons u a =>
      rintro ⟨⟩
      exact absurd (ha _ List.mem_cons_self) (by decide)
  unfold oddSuffix
  rw [htrim, split_append_cons (hslash ha), split_of_notMem (hslash hb)]
  rcases address_cases htrima with ⟨ip, h4, hip, hnorm⟩ | ⟨h4, -, hip, hnorm⟩ | ⟨h4, -, hnorm⟩
  · simp only [bne_iff_ne.2 hhead, hnorm, hip, htrima, h4]
    simp
  · simp [hnorm, hip, htrima, h4]
  · simp [hnorm, h4]

private theorem ctlIPv4_of_isIPv4 {a : JsString} (h : isIPv4 a = true) : ctlIPv4 a = true := by
  obtain ⟨v, hv⟩ := Option.isSome_iff_exists.1 h
  obtain ⟨n₁, n₂, n₃, n₄, hparts, -⟩ := octets_of_v4Value hv
  have hlen : (split 0x2e a).length = 4 := by rw [← List.length_map (f := octet), hparts]; rfl
  simp only [ctlIPv4, hlen, beq_self_eq_true, Bool.true_and, List.all_eq_true]
  intro p hp
  obtain ⟨n, hn⟩ := octet_of_mem hv hp
  unfold octet at hn
  split at hn
  · rename_i hp
    simp only [Bool.and_eq_true] at hp ⊢
    exact ⟨hp.1.1, hp.2⟩
  · cases hn

/-- Of what `valid_addr` lets in, an IPv4 address with an empty prefix part is all that the hub reads otherwise. -/
private theorem oddSuffix_of_validAddr {s : JsString} (h : validAddr s = true) :
    oddSuffix s = true ↔ ∃ a, isIPv4 a = true ∧ s = a ++ js "/" := by
  have hjs : js "/" = [0x2f] := by decide
  obtain ⟨a, hctl, hs⟩ := validAddr_shape h
  have hunits : ∀ u ∈ a, isIpUnit u = true := by
    rcases hctl with h4 | h6
    · intro u hu
      rcases ctlIPv4_units h4 hu with hd | rfl
      · simp [isIpUnit, isZoneUnit, hd]
      · rfl
    · exact fun u hu => (ctlIPv6_units h6 hu).1
  have hplain {ip : JsString} (hp : plainV4 a = some ip) : ctlIPv4 a = true ∧ isIPv4 a = true := by
    obtain ⟨hpoint, hor⟩ := plainV4_eq_some hp
    rcases hctl with h4 | h6
    · refine ⟨h4, hor.resolve_right fun hcolon => ?_⟩
      rcases ctlIPv4_units h4 hcolon with h | h
      · exact absurd h (by decide)
      · exact absurd h (by decide)
    · exact absurd rfl (ctlIPv6_units h6 hpoint).2
  have hslash {c : JsString} (hc : isIPv4 c = true) : 0x2f ∉ c := fun hm =>
    absurd (isIpUnit_of_isIPv4 hc hm) (by decide)
  rcases hs with rfl | rfl | ⟨bits, rfl, hbits, hdigits, hlen⟩
  · have hmem : 0x2f ∉ s := fun hm => absurd (hunits _ hm) (by decide)
    refine iff_of_false ?_ ?_
    · rw [oddSuffix, trim_of_all fun u hu => isSpace_of_isIpUnit (hunits u hu), split_of_notMem hmem]
      simp
    · rintro ⟨c, -, rfl⟩
      exact hmem (by simp [hjs])
  · rw [oddSuffix_pair hunits (by simp)]
    constructor
    · rintro ⟨ip, hp, -, -⟩
      exact ⟨a, (hplain hp).2, by rw [hjs]⟩
    · rintro ⟨c, hc, h⟩
      obtain rfl : a = c := by simpa [hjs] using h
      exact ⟨a, if_pos hc, by decide +kernel, by decide⟩
  · refine iff_of_false ?_ ?_
    · rw [oddSuffix_pair hunits fun u hu => by simp [isIpUnit, isZoneUnit, List.all_eq_true.1 hdigits u hu]]
      rintro ⟨ip, hp, -, hnone⟩
      exact hlen (hplain hp).1 hnone
    · rintro ⟨c, hc, h⟩
      rw [hjs] at h
      obtain ⟨-, h⟩ := append_sep_inj (fun hm => absurd (hunits _ hm) (by decide)) (hslash hc) h
      exact hbits h

/-- What `valid_addr` lets in with an odd suffix is an IPv4 address with an empty prefix part. -/
private theorem validAddr_oddSuffix_iff {s : JsString} :
    validAddr s = true ∧ oddSuffix s = true ↔ ∃ a, isIPv4 a = true ∧ s = a ++ js "/" := by
  refine ⟨fun ⟨h, hodd⟩ => (oddSuffix_of_validAddr h).1 hodd, ?_⟩
  rintro ⟨a, ha, rfl⟩
  have hvalid : validAddr (a ++ js "/") = true := by
    have hunits : ∀ u ∈ a, (u != 0x2f) = true := by
      intro u hu
      rw [bne_iff_ne]
      rintro rfl
      exact absurd (isIpUnit_of_isIPv4 ha hu) (by decide)
    rw [show js "/" = [0x2f] by decide, validAddr, List.takeWhile_append_of_pos hunits,
      List.dropWhile_append_of_pos hunits]
    simp [ctlIPv4_of_isIPv4 ha]
  exact ⟨hvalid, (oddSuffix_of_validAddr hvalid).2 ⟨a, ha, rfl⟩⟩

/-! ### Results -/

/-- **Entries mean what they say, but for an odd suffix and another spelling of an IPv6 address.**  An entry is taken
only when it has a meaning and matches an address exactly when it means it, if and only if it has no odd suffix and
is not another spelling of that address; and of what `valid_addr` lets into the whitelist, the IPv4 addresses with an
empty prefix part are what has an odd suffix. -/
theorem entry_as_meant_iff (raw ip : JsString) :
    (MatchesAsMeant raw ip ↔ oddSuffix raw = false ∧ ¬ Respelled raw ip) ∧
      (validAddr raw = true ∧ oddSuffix raw = true ↔ ∃ a, isIPv4 a = true ∧ raw = a ++ js "/") :=
  ⟨matchesAsMeant_iff raw ip, validAddr_oddSuffix_iff⟩

/-- An address with nothing behind the `/` passes `valid_addr` and is the whole internet: `Number("")` is 0. -/
theorem empty_prefix_is_everything :
    validAddr (js "10.0.0.5/") = true ∧ rangeOf (js "10.0.0.5/") = none ∧
      matchesAny (js "8.8.8.8") (parseCidrList [js "10.0.0.5/"]) = true ∧
        ¬ MatchesAsMeant (js "10.0.0.5/") (js "8.8.8.8") := by
  have hmatch : matchesAny (js "8.8.8.8") (parseCidrList [js "10.0.0.5/"]) = true := by decide +kernel
  have hrange : rangeOf (js "10.0.0.5/") = none := by decide +kernel
  refine ⟨by decide, hrange, hmatch, fun h => ?_⟩
  obtain ⟨r, hr, -⟩ := h.2.1 hmatch
  rw [hrange] at hr
  cases hr

end Servitals
