import Servitals.JsNumber

/-!
# Agent signatures

`hub/lib/agentsig.js`: a request is signed with HMAC-SHA256 over its method, path, timestamp and the hash of its body.
The two hash functions are Node's (`Crypto`); the secret and the signature are hexadecimal strings.
-/

namespace Servitals

/-! ### Hexadecimal -/

/-- Is the code unit a lower-case hexadecimal digit? -/
def isHexDigit (u : UInt16) : Bool := isDigit u || unitIn 'a' 'f' u

/-- `HEX64`: `/^[0-9a-f]{64}$/`. -/
def isHex64 (s : JsString) : Bool := s.length == 64 && s.all isHexDigit

/-- The lower-case digit of a number below 16. -/
def hexDigit (n : ℕ) : UInt16 := if n < 10 then UInt16.ofNat (0x30 + n) else UInt16.ofNat (0x57 + n)

/-- `digest("hex")`. -/
def toHex (b : List UInt8) : JsString := b.flatMap fun x => [hexDigit (x.toNat / 16), hexDigit (x.toNat % 16)]

/-- `Buffer.from(s, "hex")`: the bytes up to the first pair that is none of two digits. -/
def fromHex : JsString → List UInt8
  | u :: v :: s => match hexValue u, hexValue v with
    | some a, some b => UInt8.ofNat (16 * a + b) :: fromHex s
    | _, _ => []
  | _ => []

private theorem hexDigit_hexValue {u : UInt16} (h : isHexDigit u = true) :
    ∃ a, hexValue u = some a ∧ a < 16 ∧ hexDigit a = u := by
  rw [isHexDigit, Bool.or_eq_true, isDigit_iff, unitIn_iff, show 'a'.toNat = 0x61 from rfl,
    show 'f'.toNat = 0x66 from rfl] at h
  rcases h with h | h
  · refine ⟨u.toNat - 0x30, if_pos (isDigit_iff.2 h), by omega, ?_⟩
    rw [hexDigit, if_pos (by omega), show 0x30 + (u.toNat - 0x30) = u.toNat by omega, UInt16.ofNat_toNat]
  · refine ⟨u.toNat - 0x57, ?_, by omega, ?_⟩
    · rw [hexValue, if_neg (by rw [isDigit_iff]; omega), if_pos (unitIn_iff (a := 'a') (b := 'f') |>.2 h)]
    · rw [hexDigit, if_neg (by omega), show 0x57 + (u.toNat - 0x57) = u.toNat by omega, UInt16.ofNat_toNat]

/-- Lower-case digits, an even number of them, are what their bytes are written as. -/
theorem toHex_fromHex {s : JsString} (hs : s.all isHexDigit = true) (hlen : s.length % 2 = 0) :
    toHex (fromHex s) = s := by
  induction s using fromHex.induct with
  | case1 u v s a b hb ha ih =>
    simp only [List.all_cons, Bool.and_eq_true] at hs
    obtain ⟨a', ha', hlta, hdiga⟩ := hexDigit_hexValue hs.1
    obtain ⟨b', hb', hltb, hdigb⟩ := hexDigit_hexValue hs.2.1
    obtain rfl := Option.some.inj (ha.symm.trans ha')
    obtain rfl := Option.some.inj (hb.symm.trans hb')
    have hlen' : s.length % 2 = 0 := by
      simp only [List.length_cons] at hlen
      omega
    have hbyte : (UInt8.ofNat (16 * a + b)).toNat = 16 * a + b := by
      rw [UInt8.toNat_ofNat']
      omega
    have htail : toHex (fromHex s) = s := ih hs.2.2 hlen'
    unfold fromHex
    simp only [ha, hb]
    unfold toHex at htail ⊢
    rw [List.flatMap_cons, htail, hbyte, show (16 * a + b) / 16 = a by omega, show (16 * a + b) % 16 = b by omega,
      hdiga, hdigb]
    rfl
  | case2 u v s hnone =>
    simp only [List.all_cons, Bool.and_eq_true] at hs
    obtain ⟨a, ha, -⟩ := hexDigit_hexValue hs.1
    obtain ⟨b, hb, -⟩ := hexDigit_hexValue hs.2.1
    exact absurd hb (hnone a b ha)
  | case3 s hshort =>
    cases s with
    | nil => rfl
    | cons u s =>
      cases s with
      | nil => simp at hlen
      | cons v s => exact absurd rfl (hshort u v s)

/-! ### Signatures -/

/-- The 32 bytes of a SHA-256 hash. -/
abbrev Digest := { b : List UInt8 // b.length = 32 }

/-- The hash functions of Node's crypto module: `createHash("sha256")` and `createHmac("sha256", key)`. -/
structure Crypto where
  sha256 : List UInt8 → Digest
  hmac : List UInt8 → JsString → Digest

/-- `toUpperCase` on the letters a to z, all that a method of the agent API can have. -/
def toUpperCase (s : JsString) : JsString := s.map fun u => if unitIn 'a' 'z' u then u - 0x20 else u

namespace Crypto

def sha256hex (c : Crypto) (data : List UInt8) : JsString := toHex (c.sha256 data).1

/-- What is signed of a request. -/
def message (c : Crypto) (method pathname ts : JsString) (body : List UInt8) : JsString :=
  toUpperCase method ++ js "\n" ++ pathname ++ js "\n" ++ ts ++ js "\n" ++ c.sha256hex body

def hmacHex (c : Crypto) (secretHex message : JsString) : JsString := toHex (c.hmac (fromHex secretHex) message).1

def signRequest (c : Crypto) (secretHex method pathname ts : JsString) (body : List UInt8) : JsString :=
  c.hmacHex secretHex (c.message method pathname ts body)

/-- `verifyRequest`; the signature is compared as bytes. -/
def verifyRequest (c : Crypto) (secretHex method pathname ts : JsString) (body : List UInt8)
    (sig : Option JsString) : Bool :=
  sig.any fun sig => isHex64 sig &&
    fromHex sig == (c.hmac (fromHex secretHex) (c.message method pathname ts body)).1

/-- The only signature that verifies is the one the secret makes. -/
theorem eq_signRequest {c : Crypto} {secretHex method pathname ts : JsString} {body : List UInt8}
    {sig : Option JsString} (h : c.verifyRequest secretHex method pathname ts body sig = true) :
    sig = some (c.signRequest secretHex method pathname ts body) := by
  simp only [verifyRequest, Option.any_eq_true, Bool.and_eq_true, beq_iff_eq] at h
  obtain ⟨s, rfl, hhex, hbytes⟩ := h
  simp only [isHex64, Bool.and_eq_true, beq_iff_eq] at hhex
  rw [signRequest, hmacHex, ← hbytes, toHex_fromHex hhex.2 (by omega)]

end Crypto

end Servitals
