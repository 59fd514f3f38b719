import Servitals.ClientIp

/-!
# The proxy of outbound calls

`noProxy` and `proxyFor` of `hub/lib/proxy.js`: which destinations the hub reaches without the proxy that is set.  An
entry of `NO_PROXY` is `*`, an IPv4 range, an address, or a name that stands for itself and all names below it; what an
entry means is `entryMeans`.

The code reads more ranges than there are, since it takes a prefix length for a JavaScript number, and fewer addresses,
since it compares them as text (`direct_as_ruled_iff`).  The lower case of the language is a parameter.
-/

namespace Servitals

structure Proxy where
  host : JsString
  port : ℕ
  auth : Option JsString

def ALWAYS_DIRECT : List JsString := [js "localhost", js "127.0.0.1", js "::1"]

/-- `ipv4` -/
def ipv4 (s : JsString) : Option (BitVec 32) := (v4Value s).map (BitVec.ofNat 32)

/-- `inCidr` -/
def inCidr (host cidr : JsString) : Bool :=
  match split 0x2f cidr with
  | base :: bits :: _ =>
    match ipv4 host, ipv4 base, prefixBits bits with
    | some h, some b, some n => h &&& maskOf n == b &&& maskOf n
    | _, _, _ => false
  | _ => false

/-- `s.replace(/^\[|\]$/g, "")` -/
def unbracket (s : JsString) : JsString :=
  let t := if s.head? = some 0x5b then s.tail else s
  if t.getLast? = some 0x5d then t.dropLast else t

/-- `s.replace(/:\d+$/, "")` -/
def dropPort (s : JsString) : JsString :=
  match s.reverse.dropWhile isDigit with
  | u :: r => if u = 0x3a ∧ s.reverse.takeWhile isDigit ≠ [] then r.reverse else s
  | [] => s

/-- Is the host the name `e`, or below it? -/
def nameMatches (e host : JsString) : Bool :=
  if e.head? = some 0x2e then e.isSuffixOf host || host == e.tail else host == e || (0x2e :: e).isSuffixOf host

/-- Does the entry `e` send the host direct? -/
def entryMatches (e host : JsString) : Bool :=
  if e = js "*" then true
  else if 0x2f ∈ e then inCidr host e
  else if isIP (unbracket e) then unbracket e == host
  else nameMatches (dropPort (unbracket e)) host

section

variable (toLowerCase : JsString → JsString)

/-- The entries of a list. -/
def entriesOf (list : JsString) : List JsString :=
  ((split 0x2c list).map fun e => toLowerCase (trim e)).filter fun e => e != []

/-- `noProxy` -/
def noProxy (list host : JsString) : Bool :=
  ALWAYS_DIRECT.contains (unbracket (toLowerCase host)) ||
    (entriesOf toLowerCase list).any fun e => entryMatches e (unbracket (toLowerCase host))

/-- `proxyFor`, for the proxy that is set for the destination's protocol. -/
def proxyFor (p : Option Proxy) (skip hostname : JsString) : Option Proxy :=
  p.filter fun _ => !noProxy toLowerCase skip hostname

end

/-! ### What an entry means -/

/-- An IPv4 range with a decimal prefix length that has the host in it. -/
def rangeHas (e host : JsString) : Bool :=
  match split 0x2f e with
  | [base, bits] =>
    match v4Value base, prefixLength bits, v4Value host with
    | some b, some len, some h => h / 2 ^ (32 - len) == b / 2 ^ (32 - len)
    | _, _, _ => false
  | _ => false

/-- Two texts of one address. -/
def sameAddress (a b : JsString) : Bool :=
  isIPv4 a && v4Value a == v4Value b || isIPv6 a && v6Value a == v6Value b

/-- The labels of the name are the last labels of the host. -/
def isUnder (name host : JsString) : Bool := (split 0x2e name).isSuffixOf (split 0x2e host)

def dropDot (s : JsString) : JsString := if s.head? = some 0x2e then s.tail else s

/-- The address in brackets before a port. -/
def portedAddress (e : JsString) : Option JsString :=
  match e with
  | u :: s =>
    match s.dropWhile (· != 0x5d) with
    | _ :: v :: port => if u = 0x5b ∧ v = 0x3a ∧ port ≠ [] ∧ port.all isDigit then some (s.takeWhile (· != 0x5d)) else none
    | _ => none
  | [] => none

/-- What an entry means for a host: anything; a range; an address in any spelling, with a port or without; a name and all
below it, a leading dot and a port apart. -/
def entryMeans (e host : JsString) : Bool :=
  if e = js "*" then true
  else if 0x2f ∈ e then rangeHas e host
  else if isIP (unbracket e) then sameAddress (unbracket e) host
  else isUnder (dropDot (dropPort (unbracket e))) host || (portedAddress e).any fun a => sameAddress a host

/-- The rule of `NO_PROXY`. -/
def goesDirect (toLowerCase : JsString → JsString) (list host : JsString) : Bool :=
  ALWAYS_DIRECT.contains (unbracket (toLowerCase host)) ||
    (entriesOf toLowerCase list).any fun e => entryMeans e (unbracket (toLowerCase host))

example : (entriesOf lower (js ".corp.example, Example.org:443,, 10.0.0.0/8, [FD00::1], [fd00::2]:8443")).map
      (fun e => (entryMeans e (js "a.corp.example"), entryMeans e (js "www.example.org"), entryMeans e (js "10.4.5.6"),
        entryMeans e (js "fd00:0:0::1"), entryMeans e (js "fd00::2"))) =
    [(true, false, false, false, false), (false, true, false, false, false), (false, false, true, false, false),
      (false, false, false, true, false), (false, false, false, false, true)] := by decide +kernel

/-! ### Names -/

/-- A name's labels are the last of a host's when the host is the name, or ends in a point and the name. -/
private theorem isUnder_iff (name host : JsString) :
    isUnder name host = true ↔ host = name ∨ 0x2e :: name <:+ host := by
  rw [isUnder, List.isSuffixOf_iff_suffix]
  constructor
  · rintro ⟨before, heq⟩
    have hname := intercalate_split 0x2e name
    have hhost := intercalate_split 0x2e host
    by_cases hbefore : before = []
    · rw [← heq, hbefore, List.nil_append, hname] at hhost
      exact Or.inl hhost.symm
    · rw [← heq, intercalate_append 0x2e hbefore (split_ne_nil _ _), hname] at hhost
      exact Or.inr ⟨_, hhost⟩
  · rintro (rfl | ⟨before, rfl⟩)
    · exact List.suffix_rfl
    · rw [split_append]
      exact List.suffix_append _ _

private theorem nameMatches_eq (e host : JsString) : nameMatches e host = isUnder (dropDot e) host := by
  rw [Bool.eq_iff_iff, isUnder_iff]
  unfold nameMatches dropDot
  by_cases hdot : e.head? = some 0x2e
  · rw [if_pos hdot, if_pos hdot, Bool.or_eq_true, List.isSuffixOf_iff_suffix, beq_iff_eq]
    cases e with
    | nil => cases hdot
    | cons u e =>
      obtain rfl : u = 0x2e := Option.some.inj hdot
      exact or_comm
  · rw [if_neg hdot, if_neg hdot, Bool.or_eq_true, List.isSuffixOf_iff_suffix, beq_iff_eq]

/-! ### Ranges -/

/-- A range that the code takes, and that is none: a prefix part that is no decimal one, or more than one. -/
def looseRange (e host : JsString) : Bool :=
  match split 0x2f e with
  | base :: bits :: more =>
    match v4Value base, prefixBits bits, v4Value host with
    | some b, some len, some h => h / 2 ^ (32 - len) == b / 2 ^ (32 - len) && (more != [] || prefixLength bits == none)
    | _, _, _ => false
  | _ => false

/-- The code's ranges are the ranges, and those that it takes for some. -/
private theorem inCidr_eq (e host : JsString) : inCidr host e = (rangeHas e host || looseRange e host) := by
  unfold inCidr rangeHas looseRange
  rcases split 0x2f e with _ | ⟨base, _ | ⟨bits, more⟩⟩
  · rfl
  · rfl
  · cases hb : v4Value base with
    | none => cases v4Value host <;> cases more <;> simp [ipv4, hb]
    | some b =>
      cases hh : v4Value host with
      | none => cases more <;> simp [ipv4, hh]
      | some h =>
        cases hbits : prefixBits bits with
        | none =>
          have hnone : prefixLength bits = none := by
            cases hlen : prefixLength bits with
            | none => rfl
            | some len =>
              rw [prefixBits_of_prefixLength hlen] at hbits
              cases hbits
          cases more <;> simp [ipv4, hb, hh, hbits, hnone]
        | some n =>
          have hmask : (BitVec.ofNat 32 h &&& maskOf n == BitVec.ofNat 32 b &&& maskOf n) =
              (h / 2 ^ (32 - n) == b / 2 ^ (32 - n)) := by
            rw [Bool.eq_iff_iff, beq_iff_eq, beq_iff_eq, and_maskOf_eq_iff, BitVec.toNat_ofNat, BitVec.toNat_ofNat,
              Nat.mod_eq_of_lt (v4Value_lt hh), Nat.mod_eq_of_lt (v4Value_lt hb)]
          cases hlen : prefixLength bits with
          | none =>
            simp only [ipv4, hb, hh, hbits, hlen, Option.map_some, hmask]
            cases more <;> simp [hlen]
          | some len =>
            have heq := prefixBits_of_prefixLength hlen
            rw [hbits] at heq
            obtain rfl := Option.some.inj heq
            simp only [ipv4, hb, hh, hbits, hlen, Option.map_some, hmask]
            cases more <;> simp [hb, hlen]

/-! ### When the hub goes direct as it is ruled -/

/-- An entry that sends the host direct, read either way. -/
def plainEntry (e host : JsString) : Bool :=
  if e = js "*" then true
  else if 0x2f ∈ e then rangeHas e host
  else if isIP (unbracket e) then unbracket e == host
  else isUnder (dropDot (dropPort (unbracket e))) host

/-- An entry that is no range, but which the code takes for one that has the host in it. -/
def looseEntry (e host : JsString) : Bool := decide (0x2f ∈ e) && looseRange e host

/-- An entry that is the host's address, but spelled in another way or in brackets before a port. -/
def respelledEntry (e host : JsString) : Bool :=
  decide (0x2f ∉ e) &&
    if isIP (unbracket e) then unbracket e != host && sameAddress (unbracket e) host
    else (portedAddress e).any fun a => sameAddress a host

private theorem sameAddress_self {a : JsString} (h : isIP a = true) : sameAddress a a = true := by
  rw [isIP, Bool.or_eq_true] at h
  rw [sameAddress, beq_self_eq_true, beq_self_eq_true, Bool.and_true, Bool.and_true, Bool.or_eq_true]
  exact h

private theorem entryMatches_eq (e host : JsString) :
    entryMatches e host = (plainEntry e host || looseEntry e host) := by
  unfold entryMatches plainEntry looseEntry
  by_cases hstar : e = js "*"
  · rw [if_pos hstar, if_pos hstar, Bool.true_or]
  · rw [if_neg hstar, if_neg hstar]
    by_cases hslash : 0x2f ∈ e
    · rw [if_pos hslash, if_pos hslash, inCidr_eq, decide_eq_true hslash, Bool.true_and]
    · rw [if_neg hslash, if_neg hslash, decide_eq_false hslash, Bool.false_and, Bool.or_false, nameMatches_eq]

private theorem entryMeans_eq (e host : JsString) :
    entryMeans e host = (plainEntry e host || respelledEntry e host) := by
  unfold entryMeans plainEntry respelledEntry
  by_cases hstar : e = js "*"
  · rw [if_pos hstar, if_pos hstar, Bool.true_or]
  · rw [if_neg hstar, if_neg hstar]
    by_cases hslash : 0x2f ∈ e
    · rw [if_pos hslash, if_pos hslash, decide_eq_false (not_not.2 hslash), Bool.false_and, Bool.or_false]
    · rw [if_neg hslash, if_neg hslash, decide_eq_true hslash, Bool.true_and]
      by_cases hip : isIP (unbracket e) = true
      · rw [if_pos hip, if_pos hip, if_pos hip]
        by_cases hself : unbracket e = host
        · rw [← hself, sameAddress_self hip, beq_self_eq_true, Bool.true_or]
        · rw [beq_eq_false_iff_ne.2 hself, bne_iff_ne.2 hself, Bool.true_and, Bool.false_or]
      · rw [if_neg hip, if_neg hip, if_neg hip]

/-- Nothing is loose or respelled that is not so made up for: the host is always direct, some entry sends it direct either
way, or there are both entries of the one kind and of the other. -/
def ReadAsRuled (toLowerCase : JsString → JsString) (list host : JsString) : Prop :=
  let h := unbracket (toLowerCase host)
  let es := entriesOf toLowerCase list
  ALWAYS_DIRECT.contains h = true ∨ es.any (plainEntry · h) = true ∨ es.any (looseEntry · h) = es.any (respelledEntry · h)

/-- **Direct or through the proxy.**  For every list, every destination and whatever lower case is, a destination with a
proxy set goes direct as it is ruled exactly when the list has no loose range with the host in it and no respelled address
of the host, unless something makes up for it. -/
theorem direct_as_ruled_iff (toLowerCase : JsString → JsString) (p : Proxy) (list host : JsString) :
    (proxyFor toLowerCase (some p) list host = none ↔ goesDirect toLowerCase list host = true) ↔
      ReadAsRuled toLowerCase list host := by
  have hproxy : proxyFor toLowerCase (some p) list host = none ↔ noProxy toLowerCase list host = true := by
    rw [proxyFor, Option.filter_eq_none_iff]
    simp
  have hor : ∀ (f g : JsString → JsString → Bool) (es : List JsString) (h : JsString),
      es.any (fun e => f e h || g e h) = (es.any (f · h) || es.any (g · h)) := by
    intro f g es h
    induction es with
    | nil => rfl
    | cons e es ih =>
      rw [List.any_cons, List.any_cons, List.any_cons, ih]
      cases f e h <;> cases g e h <;> simp
  rw [hproxy, noProxy, goesDirect, ReadAsRuled]
  generalize unbracket (toLowerCase host) = h
  generalize entriesOf toLowerCase list = es
  simp only [entryMatches_eq, entryMeans_eq, hor]
  cases ALWAYS_DIRECT.contains h <;> cases es.any (plainEntry · h) <;> cases es.any (looseEntry · h) <;>
    cases es.any (respelledEntry · h) <;> simp

private def someProxy : Proxy := ⟨js "proxy.example", 3128, none⟩

/-- A range without a prefix length is the whole internet; an address of another spelling, or in brackets before a port,
goes through the proxy. -/
theorem loose_range_goes_direct :
    ¬ (proxyFor lower (some someProxy) (js "10.0.0.0/") (js "8.8.8.8") = none ↔
        goesDirect lower (js "10.0.0.0/") (js "8.8.8.8") = true) ∧
      ¬ (proxyFor lower (some someProxy) (js "2001:DB8:0:0::1, [2001:db8::1]:443") (js "[2001:db8::1]") = none ↔
        goesDirect lower (js "2001:DB8:0:0::1, [2001:db8::1]:443") (js "[2001:db8::1]") = true) := by
  have hloose : noProxy lower (js "10.0.0.0/") (js "8.8.8.8") = true := by decide +kernel
  have hruled : goesDirect lower (js "10.0.0.0/") (js "8.8.8.8") = false := by decide +kernel
  have hmissed : noProxy lower (js "2001:DB8:0:0::1, [2001:db8::1]:443") (js "[2001:db8::1]") = false := by decide +kernel
  have hruled' : goesDirect lower (js "2001:DB8:0:0::1, [2001:db8::1]:443") (js "[2001:db8::1]") = true := by
    decide +kernel
  refine ⟨fun h => ?_, fun h => ?_⟩
  · have hdirect : proxyFor lower (some someProxy) (js "10.0.0.0/") (js "8.8.8.8") = none := by
      rw [proxyFor, hloose]
      rfl
    rw [h.1 hdirect] at hruled
    cases hruled
  · have hnone := h.2 hruled'
    rw [proxyFor, hmissed] at hnone
    cases hnone

end Servitals
