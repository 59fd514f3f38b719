import Servitals.AgentReplay
import Servitals.Utf8

/-!
# The agent's calls

`agent/lib/hmac.sh` computes HMAC-SHA256 with bash and `sha256sum` alone: the pads are kept as texts of `printf` escapes,
so that zero bytes survive.  `api_call` of `agent/lib/api.sh` signs with it, and the hub with Node's crypto module
(`AgentSig`).  Both are the HMAC of RFC 2104, so each side takes what the other signs.

A text of the shell is a string; it is printed as its UTF-8.
-/

namespace Servitals

/-! ### HMAC -/

/-- Every byte of a block, flipped by a pad. -/
def padded (pad : UInt8) (key : List UInt8) : List UInt8 := key.map (· ^^^ pad)

/-- HMAC over a hash function with blocks of 64 bytes. -/
def hmacOf (sha256 : List UInt8 → Digest) (key data : List UInt8) : Digest :=
  let key := if 64 < key.length then (sha256 key).1 else key
  let block := key ++ List.replicate (64 - key.length) 0
  sha256 (padded 0x5c block ++ (sha256 (padded 0x36 block ++ data)).1)

/-- Node's hash functions: `createHmac` is the HMAC of `createHash`, and a string is hashed as its UTF-8. -/
def Crypto.ofSha256 (sha256 : List UInt8 → Digest) : Crypto := ⟨sha256, fun key s => hmacOf sha256 key (encodeUtf8 s)⟩

/-! ### The shell's HMAC -/

namespace Shell

/-- `while [ "${#k}" -lt 128 ]; do k+="0"; done` -/
def fill (k : JsString) : JsString :=
  if k.length < 128 then fill (k ++ js "0") else k
termination_by 128 - k.length
decreasing_by
  have hzero : (js "0").length = 1 := by decide
  rw [List.length_append, hzero]
  omega

/-- `$((16#..))` -/
def hexArith (s : JsString) : ℕ := digitsValue 16 (fun u => (hexValue u).getD 0) s

/-- `printf '\\x%02x'` of a number below 256. -/
def escape (b : ℕ) : JsString := [0x5c, 0x78, hexDigit (b / 16), hexDigit (b % 16)]

/-- The byte that the loop of `hmac_init` reads. -/
def byteAt (k : JsString) (j : ℕ) : ℕ := hexArith ((k.drop (2 * j)).take 2)

/-- `hmac_init`: `HMAC_IPAD` and `HMAC_OPAD`. -/
def hmacInit (key : JsString) : JsString × JsString :=
  let k := fill key
  (List.range 64).foldl
    (fun pads j => (pads.1 ++ escape (byteAt k j ^^^ 0x36), pads.2 ++ escape (byteAt k j ^^^ 0x5c))) ([], [])

/-- `printf '%b'` of a text whose only escapes are `\xHH`, of one or two digits. -/
def printfB : JsString → List UInt8
  | 0x5c :: 0x78 :: u :: v :: s => match hexValue u, hexValue v with
    | some a, some b => UInt8.ofNat (16 * a + b) :: printfB s
    | some a, none => UInt8.ofNat a :: printfB (v :: s)
    | none, _ => 0x5c :: printfB (0x78 :: u :: v :: s)
  | [0x5c, 0x78, u] => match hexValue u with
    | some a => [UInt8.ofNat a]
    | none => [0x5c, 0x78, UInt8.ofNat u.toNat]
  | u :: s => UInt8.ofNat u.toNat :: printfB s
  | [] => []

/-- `sed 's/../\\x&/g'` -/
def sedPairs : JsString → JsString
  | u :: v :: s => 0x5c :: 0x78 :: u :: v :: sedPairs s
  | s => s

section

variable (sha256 : List UInt8 → Digest)

/-- What `sha256sum` prints for its standard input. -/
def sha256sum (data : List UInt8) : JsString := toHex (sha256 data).1 ++ js "  -"

/-- `${s%% *}`, and `cut -d' ' -f1` -/
def firstWord (s : JsString) : JsString := s.takeWhile (· != 0x20)

/-- `hmac_hex` -/
def hmacHex (key message : JsString) : JsString :=
  let inner := firstWord (sha256sum sha256 (printfB (hmacInit key).1 ++ encodeUtf8 message))
  firstWord (sha256sum sha256 (printfB (hmacInit key).2 ++ printfB (sedPairs inner)))

end

/-! ### It is HMAC -/

private theorem fill_eq (k : JsString) : fill k = k ++ List.replicate (128 - k.length) 0x30 := by
  induction k using fill.induct with
  | case1 k hlt ih =>
    have hzero : js "0" = [0x30] := by decide
    have hsucc : 128 - k.length = (128 - (k ++ js "0").length) + 1 := by
      rw [hzero, List.length_append, List.length_singleton]
      omega
    rw [fill, if_pos hlt, ih, hsucc, List.replicate_succ, hzero]
    simp
  | case2 k hlt =>
    rw [fill, if_neg hlt, show 128 - k.length = 0 by omega, List.replicate_zero, List.append_nil]

private theorem hexValue_hexDigit {n : ℕ} (h : n < 16) : hexValue (hexDigit n) = some n := by
  have hall : ∀ n < 16, hexValue (hexDigit n) = some n := by decide
  exact hall n h

private theorem exists_hexValue {u : UInt16} (h : isHexDigit u = true) : ∃ a < 16, hexValue u = some a := by
  rw [isHexDigit, Bool.or_eq_true] at h
  rcases h with h | h
  · have hd := isDigit_iff.1 h
    exact ⟨u.toNat - 0x30, by omega, if_pos h⟩
  · have hd : isDigit u = false := by
      rw [unitIn_iff, show 'a'.toNat = 0x61 from rfl] at h
      rw [← Bool.not_eq_true, isDigit_iff]
      omega
    have hl := unitIn_iff.1 h
    rw [show 'a'.toNat = 0x61 from rfl, show 'f'.toNat = 0x66 from rfl] at hl
    refine ⟨u.toNat - 0x57, by omega, ?_⟩
    rw [hexValue, hd, if_neg Bool.false_ne_true, if_pos h]

/-- What the escapes of a byte print. -/
private theorem printfB_escape {b : ℕ} (hb : b < 256) (s : JsString) :
    printfB (escape b ++ s) = UInt8.ofNat b :: printfB s := by
  have hsum : 16 * (b / 16) + b % 16 = b := by omega
  simp only [escape, List.cons_append, List.nil_append, printfB, hexValue_hexDigit (show b / 16 < 16 by omega),
    hexValue_hexDigit (show b % 16 < 16 by omega), hsum]

private theorem printfB_flatMap {α : Type*} (f : α → ℕ) (l : List α) (h : ∀ x ∈ l, f x < 256) :
    printfB (l.flatMap fun x => escape (f x)) = l.map fun x => UInt8.ofNat (f x) := by
  induction l with
  | nil => rfl
  | cons x l ih =>
    rw [List.flatMap_cons, printfB_escape (h x List.mem_cons_self), ih fun y hy => h y (List.mem_cons_of_mem x hy)]
    rfl

/-- The digits of bytes, with an escape before each pair, print the bytes. -/
private theorem printfB_sedPairs (bs : List UInt8) : printfB (sedPairs (toHex bs)) = bs := by
  have hpairs : sedPairs (toHex bs) = bs.flatMap fun b => escape b.toNat := by
    induction bs with
    | nil => rfl
    | cons b bs ih =>
      rw [List.flatMap_cons, ← ih]
      rfl
  rw [hpairs, printfB_flatMap _ _ fun b _ => b.toNat_lt]
  simp

private theorem firstWord_sha256sum (sha256 : List UInt8 → Digest) (data : List UInt8) :
    firstWord (sha256sum sha256 data) = toHex (sha256 data).1 := by
  have hdigits : ∀ u ∈ toHex (sha256 data).1, (u != 0x20) = true := by
    intro u hu
    obtain ⟨b, -, hb⟩ := List.mem_flatMap.1 hu
    have hall : ∀ n < 16, (hexDigit n != 0x20) = true := by decide
    have hlt := b.toNat_lt
    simp only [List.mem_cons, List.not_mem_nil, or_false] at hb
    rcases hb with rfl | rfl
    · exact hall _ (by omega)
    · exact hall _ (by omega)
  have htail : js "  -" = [0x20, 0x20, 0x2d] := by decide
  rw [firstWord, sha256sum, htail, List.takeWhile_append_of_pos hdigits]
  simp

/-- The bytes of hexadecimal digits, read pair by pair. -/
private theorem fromHex_eq_map {k : JsString} {n : ℕ} (hk : k.all isHexDigit = true) (hlen : k.length = 2 * n) :
    fromHex k = (List.range n).map fun j => UInt8.ofNat (byteAt k j) := by
  induction n generalizing k with
  | zero =>
    have hnil : k = [] := List.length_eq_zero_iff.1 (by omega)
    subst hnil
    rfl
  | succ n ih =>
    obtain ⟨u, v, k, rfl⟩ : ∃ u v k', k = u :: v :: k' := by
      rcases k with - | ⟨u, - | ⟨v, k⟩⟩
      · simp at hlen
      · simp at hlen; omega
      · exact ⟨u, v, k, rfl⟩
    simp only [List.all_cons, Bool.and_eq_true] at hk
    obtain ⟨hu, hv, hk⟩ := hk
    obtain ⟨a, -, ha⟩ := exists_hexValue hu
    obtain ⟨b, -, hb⟩ := exists_hexValue hv
    simp only [List.length_cons] at hlen
    have hhead : byteAt (u :: v :: k) 0 = 16 * a + b := by simp [byteAt, hexArith, digitsValue, ha, hb]
    have htail : ∀ j, byteAt (u :: v :: k) (j + 1) = byteAt k j := by
      intro j
      rw [byteAt, byteAt, show 2 * (j + 1) = 2 * j + 1 + 1 by omega]
      rfl
    have hcons : fromHex (u :: v :: k) = UInt8.ofNat (16 * a + b) :: fromHex k := by rw [fromHex, ha, hb]
    have hrest : fromHex k = (List.range n).map ((fun j => UInt8.ofNat (byteAt (u :: v :: k) j)) ∘ Nat.succ) := by
      rw [ih hk (by omega)]
      exact List.map_congr_left fun j _ => by rw [Function.comp_apply, Nat.succ_eq_add_one, htail]
    rw [hcons, hrest, List.range_succ_eq_map, List.map_cons, hhead, List.map_map]

private theorem byteAt_lt {k : JsString} (hk : k.all isHexDigit = true) (j : ℕ) : byteAt k j < 256 := by
  have hall : ∀ u ∈ (k.drop (2 * j)).take 2, isHexDigit u = true := fun u hu =>
    List.all_eq_true.1 hk u (List.mem_of_mem_drop (List.mem_of_mem_take hu))
  have hshort : ((k.drop (2 * j)).take 2).length ≤ 2 := List.length_take_le 2 _
  rw [byteAt]
  generalize (k.drop (2 * j)).take 2 = l at hall hshort
  rcases l with - | ⟨u, - | ⟨v, - | ⟨w, l⟩⟩⟩
  · decide
  · obtain ⟨a, hlt, ha⟩ := exists_hexValue (hall u (by simp))
    simp only [hexArith, digitsValue, List.foldl_cons, List.foldl_nil, ha, Option.getD_some]
    omega
  · obtain ⟨a, hlt, ha⟩ := exists_hexValue (hall u (by simp))
    obtain ⟨b, hlt', hb⟩ := exists_hexValue (hall v (by simp))
    simp only [hexArith, digitsValue, List.foldl_cons, List.foldl_nil, ha, hb, Option.getD_some]
    omega
  · simp only [List.length_cons] at hshort
    omega

private theorem fromHex_append {s : JsString} (hs : s.all isHexDigit = true) (hlen : s.length % 2 = 0) (t : JsString) :
    fromHex (s ++ t) = fromHex s ++ fromHex t := by
  induction s using List.twoStepInduction with
  | nil => rfl
  | singleton u => simp at hlen
  | cons_cons u v s ih =>
    simp only [List.all_cons, Bool.and_eq_true] at hs
    obtain ⟨a, -, ha⟩ := exists_hexValue hs.1
    obtain ⟨b, -, hb⟩ := exists_hexValue hs.2.1
    simp only [List.length_cons] at hlen
    rw [List.cons_append, List.cons_append, fromHex, fromHex, ha, hb, ih hs.2.2 (by omega), List.cons_append]

/-- Two texts that a loop builds side by side. -/
private theorem foldl_pair {α β : Type*} (f g : α → List β) (l : List α) (x y : List β) :
    l.foldl (fun p j => (p.1 ++ f j, p.2 ++ g j)) (x, y) = (x ++ l.flatMap f, y ++ l.flatMap g) := by
  induction l generalizing x y with
  | nil => simp
  | cons a l ih => simp [ih]

/-- The escapes of a pad print the block, flipped by it. -/
private theorem printfB_pad {k : JsString} (hk : k.all isHexDigit = true) (hlen : k.length = 128) {pad : ℕ}
    (hpad : pad < 256) :
    printfB ((List.range 64).flatMap fun j => escape (byteAt k j ^^^ pad)) = padded (UInt8.ofNat pad) (fromHex k) := by
  have hlt : ∀ j ∈ List.range 64, byteAt k j ^^^ pad < 256 := fun j _ =>
    Nat.xor_lt_two_pow (n := 8) (byteAt_lt hk j) hpad
  rw [printfB_flatMap _ _ hlt, padded, fromHex_eq_map hk (n := 64) (by omega), List.map_map]
  exact List.map_congr_left fun j _ => UInt8.ofNat_xor (byteAt k j) pad

end Shell

open Shell in
/-- The shell's HMAC is the one of Node's crypto module. -/
private theorem hmacHex_eq (sha256 : List UInt8 → Digest) {key : JsString} (hkey : isHex64 key = true)
    (message : JsString) :
    hmacHex sha256 key message = (Crypto.ofSha256 sha256).hmacHex key message := by
  simp only [isHex64, Bool.and_eq_true, beq_iff_eq] at hkey
  obtain ⟨hlen, hdigits⟩ := hkey
  -- the filled key is the block of HMAC, in hexadecimal
  have hfill : fill key = key ++ List.replicate 64 0x30 := by rw [fill_eq, hlen]
  have hk : (fill key).all isHexDigit = true := by
    rw [hfill, List.all_append, hdigits, Bool.true_and]
    decide
  have hklen : (fill key).length = 128 := by rw [hfill, List.length_append, hlen, List.length_replicate]
  have hbytes : (fromHex key).length = 32 := by
    rw [fromHex_eq_map hdigits (n := 32) (by omega), List.length_map, List.length_range]
  have hblock : fromHex (fill key) = fromHex key ++ List.replicate (64 - (fromHex key).length) 0 := by
    have hzeros : fromHex (List.replicate 64 0x30) = List.replicate 32 0 := by decide
    rw [hfill, fromHex_append hdigits (by omega), hzeros, hbytes]
  have hinit : hmacInit key = ((List.range 64).flatMap fun j => escape (byteAt (fill key) j ^^^ 0x36),
      (List.range 64).flatMap fun j => escape (byteAt (fill key) j ^^^ 0x5c)) := by
    rw [hmacInit, foldl_pair]
    rfl
  rw [hmacHex, hinit, firstWord_sha256sum, firstWord_sha256sum, printfB_sedPairs, printfB_pad hk hklen (by decide),
    printfB_pad hk hklen (by decide), hblock]
  have hshort : ¬ 64 < (fromHex key).length := by omega
  simp only [Crypto.hmacHex, Crypto.ofSha256, hmacOf, hshort, if_false]
  rfl

/-! ### What is signed -/

/-- A text that a secret signs: of a request, or of the reply to one. -/
inductive Signed
  | request (method pathname ts : JsString) (body : List UInt8)
  | reply (ts : JsString) (body : List UInt8)

/-- What is signed of a reply. -/
def Crypto.replyMessage (c : Crypto) (ts : JsString) (body : List UInt8) : JsString :=
  js "reply" ++ js "\n" ++ ts ++ js "\n" ++ c.sha256hex body

/-- `signReply` -/
def Crypto.signReply (c : Crypto) (secretHex ts : JsString) (body : List UInt8) : JsString :=
  c.hmacHex secretHex (c.replyMessage ts body)

namespace Signed

def text (c : Crypto) : Signed → JsString
  | request method pathname ts body => c.message method pathname ts body
  | reply ts body => c.replyMessage ts body

/-- The parts of the head are lines of their own. -/
def Lined : Signed → Prop
  | request method pathname ts _ => 0x0a ∉ method ∧ 0x0a ∉ pathname ∧ 0x0a ∉ ts
  | reply ts _ => 0x0a ∉ ts

/-- The same request, or the same reply, up to the hash of its body. -/
def Same (c : Crypto) : Signed → Signed → Prop
  | request method pathname ts body, request method' pathname' ts' body' =>
    toUpperCase method = toUpperCase method' ∧ pathname = pathname' ∧ ts = ts' ∧ c.sha256 body = c.sha256 body'
  | reply ts body, reply ts' body' => ts = ts' ∧ c.sha256 body = c.sha256 body'
  | _, _ => False

end Signed

private theorem newline_notMem_toUpperCase {s : JsString} (h : 0x0a ∉ s) : 0x0a ∉ toUpperCase s := by
  intro hmem
  obtain ⟨u, hu, heq⟩ := List.mem_map.1 hmem
  split at heq
  · rename_i hl
    have hlo := (unitIn_iff.1 hl).1
    have hhi := (unitIn_iff.1 hl).2
    rw [show 'a'.toNat = 0x61 from rfl] at hlo
    rw [show 'z'.toNat = 0x7a from rfl] at hhi
    have hsub := congrArg UInt16.toNat heq
    rw [UInt16.toNat_sub] at hsub
    have hc : (0x20 : UInt16).toNat = 0x20 := rfl
    have hn : (0x0a : UInt16).toNat = 0x0a := rfl
    omega
  · subst heq
    exact h hu

private theorem toHex_injective : Function.Injective toHex := by
  intro a b h
  rw [← Shell.printfB_sedPairs a, h, Shell.printfB_sedPairs]

private theorem sha256hex_inj {c : Crypto} {a b : List UInt8} (h : c.sha256hex a = c.sha256hex b) :
    c.sha256 a = c.sha256 b :=
  Subtype.ext (toHex_injective h)

/-- The lines of a request's text. -/
private theorem message_lines (c : Crypto) (method pathname ts : JsString) (body : List UInt8) :
    c.message method pathname ts body =
      toUpperCase method ++ 0x0a :: (pathname ++ 0x0a :: (ts ++ 0x0a :: c.sha256hex body)) := by
  have hnl : js "\n" = [0x0a] := by decide
  simp [Crypto.message, hnl]

private theorem replyMessage_lines (c : Crypto) (ts : JsString) (body : List UInt8) :
    c.replyMessage ts body = js "reply" ++ 0x0a :: (ts ++ 0x0a :: c.sha256hex body) := by
  have hnl : js "\n" = [0x0a] := by decide
  simp [Crypto.replyMessage, hnl]

/-- A request's method is in capitals, so its text is no reply's. -/
private theorem toUpperCase_ne_reply (s : JsString) : toUpperCase s ≠ js "reply" := by
  intro h
  have hr : (0x72 : UInt16) ∈ toUpperCase s := by
    rw [h]
    decide
  obtain ⟨u, -, heq⟩ := List.mem_map.1 hr
  split at heq
  · rename_i hl
    have hlo := (unitIn_iff.1 hl).1
    have hhi := (unitIn_iff.1 hl).2
    rw [show 'a'.toNat = 0x61 from rfl] at hlo
    rw [show 'z'.toNat = 0x7a from rfl] at hhi
    have hsub := congrArg UInt16.toNat heq
    rw [UInt16.toNat_sub] at hsub
    have hc : (0x20 : UInt16).toNat = 0x20 := rfl
    have hn : (0x72 : UInt16).toNat = 0x72 := rfl
    omega
  · rename_i hl
    subst heq
    exact hl (by decide)

namespace Signed

/-- A signed text tells what it was made of: no two requests share one, no two replies, and no request one with a
reply. -/
theorem same_of_text_eq {c : Crypto} {x y : Signed} (hx : x.Lined) (hy : y.Lined) (h : x.text c = y.text c) :
    x.Same c y := by
  have hreply : (0x0a : UInt16) ∉ js "reply" := by decide
  cases x with
  | request method pathname ts body =>
    obtain ⟨hm, hp, hts⟩ := hx
    cases y with
    | request method' pathname' ts' body' =>
      obtain ⟨hm', hp', hts'⟩ := hy
      simp only [text, message_lines] at h
      obtain ⟨hmethod, h⟩ := append_sep_inj (newline_notMem_toUpperCase hm) (newline_notMem_toUpperCase hm') h
      obtain ⟨hpath, h⟩ := append_sep_inj hp hp' h
      obtain ⟨htseq, h⟩ := append_sep_inj hts hts' h
      exact ⟨hmethod, hpath, htseq, sha256hex_inj h⟩
    | reply ts' body' =>
      simp only [text, message_lines, replyMessage_lines] at h
      obtain ⟨hmethod, -⟩ := append_sep_inj (newline_notMem_toUpperCase hm) hreply h
      exact absurd hmethod (toUpperCase_ne_reply method)
  | reply ts body =>
    cases y with
    | request method' pathname' ts' body' =>
      simp only [text, message_lines, replyMessage_lines] at h
      obtain ⟨hmethod, -⟩ := append_sep_inj hreply (newline_notMem_toUpperCase hy.1) h
      exact absurd hmethod.symm (toUpperCase_ne_reply method')
    | reply ts' body' =>
      simp only [text, replyMessage_lines] at h
      obtain ⟨-, h⟩ := append_sep_inj hreply hreply h
      obtain ⟨htseq, h⟩ := append_sep_inj hx hy h
      exact ⟨htseq, sha256hex_inj h⟩

/-- Two pushes that sign one text. -/
theorem push_text_eq :
    (request (js "POST") (js "/api/v1/agent/push") (js "1700000000000") [1]).Same
      (Crypto.ofSha256 fun _ => ⟨List.replicate 32 0, rfl⟩)
      (request (js "post") (js "/api/v1/agent/push") (js "1700000000000") [2]) :=
  same_of_text_eq (by unfold Lined; decide) (by unfold Lined; decide) (by decide)

end Signed

/-! ### A call and its answer -/

section

variable (sha256 : List UInt8 → Digest)

/-- The signature of a request of `api_call`. -/
def callSig (key method path ts : JsString) (body : List UInt8) : JsString :=
  let bh := Shell.firstWord (Shell.sha256sum sha256 body)
  Shell.hmacHex sha256 key (method ++ js "\n" ++ path ++ js "\n" ++ ts ++ js "\n" ++ bh)

/-- The request of `api_call`, as the hub reads it. -/
def callHead (key : Secret) (id : NodeId) (endpoint : Endpoint) (ts : JsString) (body : List UInt8) (ip : JsString) :
    Head where
  ip := ip
  method := endpoint.method
  url := endpoint.pathname
  proto := some (js "1")
  node := some id.1
  ts := some ts
  sig := some (callSig sha256 key.1 endpoint.method endpoint.pathname ts body)
  contentLength := some body.length

/-- Does `api_call` take the reply: a 2xx whose signature is the hub's? -/
def callTakes (key ts : JsString) (status : ℕ) (got : JsString) (out : List UInt8) : Bool :=
  decide (200 ≤ status) && decide (status < 300) &&
    got == Shell.hmacHex sha256 key
      (js "reply" ++ js "\n" ++ ts ++ js "\n" ++ Shell.firstWord (Shell.sha256sum sha256 out))

end

variable {sha256 : List UInt8 → Digest}

private theorem toUpperCase_method (endpoint : Endpoint) : toUpperCase endpoint.method = endpoint.method := by
  cases endpoint <;> decide

/-- The shell signs a request as the hub's own code would. -/
private theorem callSig_eq (key : Secret) (endpoint : Endpoint) (ts : JsString) (body : List UInt8) :
    callSig sha256 key.1 endpoint.method endpoint.pathname ts body =
      (Crypto.ofSha256 sha256).signRequest key.1 endpoint.method endpoint.pathname ts body := by
  rw [callSig, Shell.firstWord_sha256sum, hmacHex_eq sha256 key.2, Crypto.signRequest, Crypto.message,
    toUpperCase_method]
  rfl

/-- The shell takes a successful reply when its signature is the one that the hub makes with the same secret. -/
private theorem callTakes_iff (key : Secret) {ts got : JsString} {status : ℕ} {out : List UInt8} (hok : 200 ≤ status)
    (hok' : status < 300) : callTakes sha256 key.1 ts status got out = true ↔
      got = (Crypto.ofSha256 sha256).signReply key.1 ts out := by
  rw [callTakes, Shell.firstWord_sha256sum, hmacHex_eq sha256 key.2]
  simp only [hok, hok', decide_true, Bool.and_self, Bool.true_and, beq_iff_eq]
  rfl

private theorem length_toHex (b : List UInt8) : (toHex b).length = 2 * b.length := by
  induction b with
  | nil => rfl
  | cons x b ih =>
    rw [toHex] at ih
    rw [toHex, List.flatMap_cons, List.length_append, ih, List.length_cons, List.length_cons, List.length_cons,
      List.length_nil]
    omega

private theorem isHexDigit_of_mem_toHex {b : List UInt8} {u : UInt16} (h : u ∈ toHex b) : isHexDigit u = true := by
  have hall : ∀ n < 16, isHexDigit (hexDigit n) = true := by decide
  obtain ⟨x, -, hx⟩ := List.mem_flatMap.1 h
  have hlt := x.toNat_lt
  simp only [List.mem_cons, List.not_mem_nil, or_false] at hx
  rcases hx with rfl | rfl
  · exact hall _ (by omega)
  · exact hall _ (by omega)

private theorem isHex64_toHex (d : Digest) : isHex64 (toHex d.1) = true := by
  rw [isHex64, length_toHex, d.2, Bool.and_eq_true]
  exact ⟨by decide, List.all_eq_true.2 fun u hu => isHexDigit_of_mem_toHex hu⟩

private theorem fromHex_toHex (b : List UInt8) : fromHex (toHex b) = b := by
  refine toHex_injective (toHex_fromHex (List.all_eq_true.2 fun u hu => isHexDigit_of_mem_toHex hu) ?_)
  rw [length_toHex]
  omega

/-- A signature verifies exactly when it is the one that the secret makes. -/
private theorem Crypto.verifyRequest_iff {c : Crypto} {secretHex method pathname ts sig : JsString}
    {body : List UInt8} :
    c.verifyRequest secretHex method pathname ts body (some sig) = true ↔
      sig = c.signRequest secretHex method pathname ts body := by
  constructor
  · intro h
    exact Option.some.inj (eq_signRequest h)
  · rintro rfl
    simp only [verifyRequest, signRequest, hmacHex, Option.any_some, isHex64_toHex, fromHex_toHex, Bool.true_and,
      beq_self_eq_true]

namespace AgentApi

/-- What an agent's call finds at the hub when its request arrives: its node is listed, nobody failed too often under
its name, its clock is close and its timestamp is new. -/
structure Ready (a : AgentApi) (id : NodeId) (endpoint : Endpoint) (ts : JsString) (ip : JsString) (t : ℤ) : Prop where
  listed : ((a.nodes.get id).2).isSome = true
  free : a.blocked ((if ip = [] then js "?" else ip) ++ js " " ++ id.1) t = false
  timestamp : isTimestamp ts = true
  close : |t - numberOf ts| ≤ MAX_SKEW_MS
  later : (a.lastTs.get? (id, endpoint)).getD 0 < numberOf ts

variable {valid : List UInt8 → Bool} {maxBody : ℕ}

private theorem endpointOf_pathname (endpoint : Endpoint) : endpointOf (pathOf endpoint.pathname) = some endpoint := by
  cases endpoint <;> decide

/-- The head of such a call is accepted. -/
theorem Ready.checkHead {a : AgentApi} {id : NodeId} {endpoint : Endpoint} {ts ip : JsString} {t : ℤ}
    (h : a.Ready id endpoint ts ip t) (key : Secret) {body : List UInt8} (hbody : body.length ≤ maxBody) :
    ∃ addr, (a.nodes.get id).2 = some addr ∧
      (a.checkHead maxBody (callHead sha256 key id endpoint ts body ip) t).2 =
        .ok ⟨endpoint, id, addr, (if ip = [] then js "?" else ip) ++ js " " ++ id.1, ts, numberOf ts, t,
          some (callSig sha256 key.1 endpoint.method endpoint.pathname ts body), a.accepted.length⟩ := by
  obtain ⟨addr, haddr⟩ := Option.isSome_iff_exists.1 h.listed
  have hquery : endpoint.pathname.contains 0x3f = false := by cases endpoint <;> decide
  have hfree : AgentApi.blocked { a with nodes := (a.nodes.get id).1 }
      ((if ip = [] then js "?" else ip) ++ js " " ++ id.1) t = false := h.free
  have hskew : ¬ MAX_SKEW_MS < |t - numberOf ts| := not_lt.2 h.close
  have hlater : ¬ numberOf ts ≤ (a.lastTs.get? (id, endpoint)).getD 0 := not_le.2 h.later
  refine ⟨addr, haddr, ?_⟩
  unfold AgentApi.checkHead callHead
  simp only [endpointOf_pathname, ne_eq, not_true_eq_false, if_false, hquery, Bool.false_eq_true, Option.getD_some,
    id.2, dite_true, haddr]
  simp only [Head.client, hfree, Bool.false_eq_true, if_false, checkTs, Option.getD_some, h.timestamp, Bool.not_true,
    Bool.false_or, decide_eq_true_eq, hskew, hlater, not_lt.2 hbody]

/-- A call whose body is complete: the secret is still one of the node's, no other of its secrets makes the same
signature, and a push is valid and comes not too soon. -/
structure Ends (a : AgentApi) (sha256 : List UInt8 → Digest) (valid : List UInt8 → Bool) (q : Pending) (key : Secret)
    (body : List UInt8) : Prop where
  candidate : ∃ n, a.nodes.heap[q.addr]? = some n ∧ key.1 ∈ candidates n q.hubMs ∧
    ∀ s ∈ candidates n q.hubMs,
      (Crypto.ofSha256 sha256).signRequest s q.endpoint.method q.endpoint.pathname q.tsRaw body =
        callSig sha256 key.1 q.endpoint.method q.endpoint.pathname q.tsRaw body → s = key.1
  push : q.endpoint = .push → a.tooSoon q = false ∧ valid body = true

/-- The hub finds the secret that the agent signed with. -/
theorem Ends.secretOf {a : AgentApi} {q : Pending} {key : Secret} {body : List UInt8}
    (h : a.Ends sha256 valid q key body)
    (hsig : q.sig = some (callSig sha256 key.1 q.endpoint.method q.endpoint.pathname q.tsRaw body)) :
    a.secretOf (Crypto.ofSha256 sha256) q body = some key.1 := by
  obtain ⟨n, hn, hmem, hone⟩ := h.candidate
  have hne : key.1 ≠ [] := by
    intro hnil
    have := key.2
    rw [hnil] at this
    exact absurd this (by decide)
  have hfind : (candidates n q.hubMs).find? (fun s => (Crypto.ofSha256 sha256).verifyRequest s q.endpoint.method
      q.endpoint.pathname q.tsRaw body q.sig) = some key.1 := by
    -- the agent's secret verifies, and nothing else does
    cases hf : (candidates n q.hubMs).find? (fun s => (Crypto.ofSha256 sha256).verifyRequest s q.endpoint.method
        q.endpoint.pathname q.tsRaw body q.sig) with
    | none =>
      refine absurd ?_ (List.find?_eq_none.1 hf key.1 hmem)
      rw [hsig, Crypto.verifyRequest_iff]
      exact callSig_eq key q.endpoint q.tsRaw body
    | some s =>
      have hver := List.find?_some hf
      rw [hsig, Crypto.verifyRequest_iff] at hver
      rw [hone s (List.mem_of_find?_eq_some hf) hver.symm]
  rw [AgentApi.secretOf, hn, Option.bind_some, hfind, Option.filter_some, if_pos (bne_iff_ne.2 hne)]

theorem Ends.complete {a : AgentApi} {q : Pending} {key : Secret} {body : List UInt8}
    (h : a.Ends sha256 valid q key body)
    (hsig : q.sig = some (callSig sha256 key.1 q.endpoint.method q.endpoint.pathname q.tsRaw body))
    (hbody : body.length ≤ maxBody) (t : ℤ) :
    (a.complete (Crypto.ofSha256 sha256) valid maxBody q (some body) t).2 = .ok () := by
  have hread : readLimited maxBody (some body) = some body := by
    rw [readLimited, Option.filter_some, if_pos (decide_eq_true hbody)]
  have hcheck : a.checkBody (Crypto.ofSha256 sha256) valid q body = .ok () := by
    rw [checkBody, h.secretOf hsig]
    simp only [Option.isNone_some, Bool.false_eq_true, if_false]
    cases hq : q.endpoint with
    | wait => rfl
    | push =>
      obtain ⟨hsoon, hvalid⟩ := h.push hq
      simp only [hsoon, hvalid, Bool.false_eq_true, if_false, if_true]
  rw [AgentApi.complete, hread]
  simp only [hcheck]

/-- The shell's HMAC is HMAC-SHA256.  So what an agent sends, the hub accepts when it is ready for it and ends with it,
whatever happens between the head and the end of the body; and the agent takes exactly the reply that the hub signs with
the secret it found. -/
theorem call_accepted {a : AgentApi} {id : NodeId} {endpoint : Endpoint} {ts ip : JsString} {t : ℤ}
    (h : a.Ready id endpoint ts ip t) (key : Secret) {body : List UInt8} (hbody : body.length ≤ maxBody) :
    (∀ message, Shell.hmacHex sha256 key.1 message = toHex (hmacOf sha256 (fromHex key.1) (encodeUtf8 message)).1) ∧
    ∃ q, (a.checkHead maxBody (callHead sha256 key id endpoint ts body ip) t).2 = .ok q ∧
      ∀ (a' : AgentApi) (t' : ℤ), a'.Ends sha256 valid q key body →
        (a'.complete (Crypto.ofSha256 sha256) valid maxBody q (some body) t').2 = .ok () ∧
        ∃ s, a'.secretOf (Crypto.ofSha256 sha256) q body = some s ∧
          ∀ status got out, 200 ≤ status → status < 300 →
            (callTakes sha256 key.1 ts status got out = true ↔ got = (Crypto.ofSha256 sha256).signReply s ts out) := by
  obtain ⟨addr, -, hok⟩ := @Ready.checkHead sha256 maxBody a id endpoint ts ip t h key body hbody
  refine ⟨fun message => hmacHex_eq sha256 key.2 message, _, hok,
    fun a' t' hend => ⟨hend.complete rfl hbody t', key.1, hend.secretOf rfl, ?_⟩⟩
  intro status got out hle hlt
  exact callTakes_iff key hle hlt

/-- A hash that stands for SHA-256: the first bytes of the data. -/
def firstBytes (data : List UInt8) : Digest := ⟨(data ++ List.replicate 32 0).take 32, by simp⟩

def callId : NodeId := ⟨js "callingnode2", by decide⟩

/-- A hub whose own node is listed. -/
def callHub : AgentApi := start none .empty [] (js "nas") callId copiedSecret 1699999999000

private theorem callHub_ready : callHub.Ready callId .wait (js "1700000000000") (js "192.168.0.7") 1700000000100 where
  listed := by decide +kernel
  free := by decide +kernel
  timestamp := by decide
  close := by decide +kernel
  later := by decide +kernel

/-- The wait of the hub's own agent. -/
theorem wait_call_accepted :
    ∃ q, (callHub.checkHead 262144
        (callHead firstBytes copiedSecret callId .wait (js "1700000000000") [] (js "192.168.0.7")) 1700000000100).2 =
          .ok q ∧
      (callHub.complete (Crypto.ofSha256 firstBytes) (fun _ => false) 262144 q (some []) 1700000000200).2 = .ok () := by
  obtain ⟨-, q, hq, hall⟩ := @call_accepted firstBytes (fun _ => false) 262144 callHub callId .wait (js "1700000000000")
    (js "192.168.0.7") 1700000000100 callHub_ready copiedSecret [] (by decide)
  refine ⟨q, hq, (hall callHub 1700000000200 ?_).1⟩
  obtain ⟨addr, haddr, hok⟩ := @Ready.checkHead firstBytes 262144 callHub callId .wait _ _ _ callHub_ready
    copiedSecret [] (by decide)
  obtain rfl := Except.ok.inj (hok.symm.trans hq)
  have hzero : (callHub.nodes.get callId).2 = some 0 := by decide +kernel
  obtain rfl := Option.some.inj (haddr.symm.trans hzero)
  have hone : (callHub.nodes.heap[0]?).map (fun n => candidates n 1700000000100) = some [copiedSecret.1] := by
    decide +kernel
  refine ⟨?_, fun hpush => by cases hpush⟩
  obtain ⟨n, hn, hcand⟩ := Option.map_eq_some_iff.1 hone
  refine ⟨n, hn, ?_, fun s hs _ => ?_⟩
  · rw [hcand]
    exact List.mem_singleton_self _
  · rw [hcand] at hs
    exact List.mem_singleton.1 hs

end AgentApi

end Servitals
