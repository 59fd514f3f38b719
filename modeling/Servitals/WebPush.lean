import Servitals.Fit
import Servitals.Lib.Aead

/-!
# Web Push

The payload of a Web Push message as `hub/lib/notify.js` makes it and `encrypt` of `hub/lib/webpush.js`.  The body of the
notification is cut shorter until the payload has at most 3800 bytes; at the shortest cut every field is bounded, at six
bytes for a character, so that it always comes to that (`payload_fits`).

The key agreement, HMAC-SHA256 and the cipher are parameters: a secret of 32 bytes, or none for a key that is no point of
the curve; codes of 32 bytes; as many bytes as were encrypted, and a tag of 16.
-/

namespace Servitals

/-! ### JSON text -/

/-- The lower-case hexadecimal digit of a number below 16. -/
def lowerHex (n : ℕ) : UInt16 := .ofNat (if n < 10 then 0x30 + n else 0x57 + n)

/-- `\u` and four digits. -/
def unicodeEscape (u : UInt16) : JsString :=
  js "\\u" ++ [lowerHex (u.toNat / 0x1000), lowerHex (u.toNat / 0x100 % 0x10), lowerHex (u.toNat / 0x10 % 0x10),
    lowerHex (u.toNat % 0x10)]

/-- A character as `JSON.stringify` writes it. -/
def jsonChar (c : JsString) : JsString :=
  match c with
  | [u] =>
    if u = 0x22 then js "\\\""
    else if u = 0x5c then js "\\\\"
    else if u = 0x08 then js "\\b"
    else if u = 0x0c then js "\\f"
    else if u = 0x0a then js "\\n"
    else if u = 0x0d then js "\\r"
    else if u = 0x09 then js "\\t"
    else if u < 0x20 || isHigh u || isLow u then unicodeEscape u
    else [u]
  | c => c

/-- `JSON.stringify` of a string. -/
def quoted (s : JsString) : JsString := 0x22 :: (chars s).flatMap jsonChar ++ [0x22]

/-! ### The payload -/

/-- The event that an alert's message is about, as far as a payload says it. -/
structure PushEvent where
  rule : JsString
  node : JsString
  sub : JsString

inductive PushKind
  | alert | summary | digest | test

def PushKind.str : PushKind → JsString
  | alert => js "alert"
  | summary => js "summary"
  | digest => js "digest"
  | test => js "test"

/-- A message to a channel. -/
structure PushMessage where
  kind : PushKind
  severity : Severity
  title : JsString
  text : JsString
  event : Option PushEvent

namespace PushMessage

/-- One notification for an alert. -/
def tag (m : PushMessage) : JsString :=
  match m.event with
  | some e => (e.rule ++ bar :: e.node ++ bar :: e.sub).take 200
  | none => m.kind.str

/-- The node's view, for a node with an id. -/
def url (m : PushMessage) : JsString :=
  match m.event with
  | some e => if isNodeId e.node then js "/#node=" ++ e.node else js "/"
  | none => js "/"

/-- `make`: the payload with a body of at most `n` characters. -/
def make (m : PushMessage) (n : ℕ) : JsString :=
  js "\x7b\"title\":" ++ quoted (cut m.title 120) ++ js ",\"body\":" ++ quoted (fit m.text n) ++ js ",\"severity\":" ++
    quoted m.severity.label ++ js ",\"tag\":" ++ quoted m.tag ++ js ",\"url\":" ++ quoted m.url ++ js "\x7d"

end PushMessage

/-- `Buffer.byteLength(s)` -/
def byteLength (s : JsString) : ℕ := (encodeUtf8 s).length

/-- `while (Buffer.byteLength(p) > 3800 && n > 50) { n = Math.floor(n * 0.7); p = make(n); }`; for the numbers that `n`
takes the product is right to its integer part. -/
def shrink (m : PushMessage) (n : ℕ) : JsString :=
  if h : 3800 < byteLength (m.make n) ∧ 50 < n then shrink m (n * 7 / 10) else m.make n
termination_by n
decreasing_by omega

def PushMessage.payload (m : PushMessage) : JsString := shrink m 1500

/-! ### Encryption -/

/-- Some bytes of a known number. -/
abbrev Bytes (n : ℕ) := { bs : List UInt8 // bs.length = n }

/-- `createECDH` for one message, HMAC-SHA256, and AES-128-GCM with keys of 16 bytes and nonces of 12. -/
structure PushCrypto where
  asPublic : Bytes 65
  agree : List UInt8 → Option (Bytes 32)
  hmac : List UInt8 → List UInt8 → Bytes 32
  gcm : Aead (List UInt8) (List UInt8) (Bytes 16)

namespace PushCrypto

/-- `WebPush: info` with the two public keys, and the marks of the key and the nonce, each with the counter of its one
block. -/
def infoOf (uaPublic asPublic : List UInt8) : List UInt8 := encodeUtf8 (js "WebPush: info") ++ 0 :: (uaPublic ++ asPublic ++ [1])

def keyInfo : List UInt8 := encodeUtf8 (js "Content-Encoding: aes128gcm") ++ [0, 1]

def nonceInfo : List UInt8 := encodeUtf8 (js "Content-Encoding: nonce") ++ [0, 1]

/-- The key and the nonce of a record. -/
def keysOf (hmac : List UInt8 → List UInt8 → Bytes 32) (secret auth uaPublic asPublic salt : List UInt8) :
    List UInt8 × List UInt8 :=
  let prkKey := hmac auth secret
  let ikm := hmac prkKey.1 (infoOf uaPublic asPublic)
  let prk := hmac salt ikm.1
  ((hmac prk.1 keyInfo).1.take 16, (hmac prk.1 nonceInfo).1.take 12)

end PushCrypto

def MAX_PLAIN : ℕ := 4096 - 86 - 16 - 1

/-- `encrypt` -/
def encrypt (c : PushCrypto) (payload : JsString) (p256dh auth : List UInt8) (salt : Bytes 16) :
    Except JsString (List UInt8) :=
  if MAX_PLAIN < byteLength payload then .error (js "EPUSHSIZE")
  else if p256dh.length ≠ 65 ∨ p256dh.head? ≠ some 4 then .error (js "EPUSHKEY")
  else if auth.length ≠ 16 then .error (js "EPUSHKEY")
  else match c.agree p256dh with
    | none => .error (js "ERR_CRYPTO_ECDH_INVALID_PUBLIC_KEY")
    | some secret =>
      let (cek, nonce) := PushCrypto.keysOf c.hmac secret.1 auth p256dh c.asPublic.1 salt.1
      let (data, tag) := c.gcm.lock cek nonce (encodeUtf8 payload ++ [2])
      .ok (salt.1 ++ [0, 0, 0x10, 0] ++ [UInt8.ofNat c.asPublic.1.length] ++ c.asPublic.1 ++ data ++ tag.1)

/-! ### Lengths -/

private theorem byteLength_eq (s : JsString) : byteLength s = ((chars s).map fun c => (charBytes c).length).sum := by
  rw [byteLength, encodeUtf8, List.length_flatMap]

private theorem length_utf8_le {c : ℕ} (h : c < 0x10000) : (utf8 c).length ≤ 3 := by
  unfold utf8
  split
  · exact Nat.succ_le_succ (Nat.zero_le 2)
  · split
    · exact Nat.le_succ 2
    · exact le_rfl

private theorem length_utf8_le_four (c : ℕ) : (utf8 c).length ≤ 4 := by
  unfold utf8
  split
  · exact Nat.succ_le_succ (Nat.zero_le 3)
  · split
    · exact Nat.succ_le_succ (Nat.succ_le_succ (Nat.zero_le 2))
    · split <;> simp

/-- A unit of its own has three bytes at most. -/
private theorem length_charBytes_unit (u : UInt16) : (charBytes [u]).length ≤ 3 := by
  have hpoint : pointOf [u] < 0x10000 := by
    have hlt : u.toNat < 0x10000 := by simpa using u.toNat_lt
    show (if isHigh u || isLow u then 0xfffd else u.toNat) < 0x10000
    split <;> omega
  rw [charBytes, List.length_map]
  exact length_utf8_le hpoint

/-- A half of a pair is replaced by a character of three bytes. -/
private theorem length_charBytes_half {u : UInt16} (h : isHigh u = true ∨ isLow u = true) :
    (charBytes [u]).length = 3 := by
  have hpoint : pointOf [u] = 0xfffd := if_pos (Bool.or_eq_true_iff.2 h)
  rw [charBytes, hpoint]
  rfl

/-- Two strings together have at most the bytes of both: where they meet, two halves may become one character. -/
private theorem byteLength_append_le (a b : JsString) : byteLength (a ++ b) ≤ byteLength a + byteLength b := by
  simp only [byteLength_eq]
  fun_induction chars a with
  | case1 u v a hpair ih =>
    rw [List.cons_append, List.cons_append, chars, if_pos hpair, List.map_cons, List.sum_cons, List.map_cons, List.sum_cons]
    omega
  | case2 u v a hpair ih =>
    rw [List.cons_append, List.cons_append, chars, if_neg hpair, List.map_cons, List.sum_cons, List.map_cons,
      List.sum_cons]
    rw [List.cons_append] at ih
    omega
  | case3 u =>
    cases b with
    | nil => exact Nat.le_add_right _ _
    | cons v b =>
      rw [List.singleton_append, chars]
      split
      · -- the halves of a pair, each of three bytes before
        rename_i hpair
        rw [Bool.and_eq_true] at hpair
        have hnot : isHigh v = false := by
          rw [← Bool.not_eq_true, isHigh_iff]
          have := isLow_iff.1 hpair.2
          omega
        have hb : chars (v :: b) = [v] :: chars b := by
          cases b with
          | nil => rfl
          | cons w b => rw [chars, if_neg (by rw [hnot, Bool.false_and]; exact Bool.false_ne_true)]
        have hfour : (charBytes [u, v]).length ≤ 4 := by
          rw [charBytes, List.length_map]
          exact length_utf8_le_four _
        rw [hb]
        simp only [List.map_cons, List.map_nil, List.sum_cons, List.sum_nil]
        rw [length_charBytes_half (Or.inl hpair.1), length_charBytes_half (Or.inr hpair.2)]
        omega
      · simp only [List.map_cons, List.map_nil, List.sum_cons, List.sum_nil]
        omega
  | case4 => exact (Nat.zero_add _).ge

/-- A string of ASCII has a byte for each unit. -/
private theorem byteLength_ascii {s : JsString} (h : ∀ u ∈ s, u.toNat < 0x80) : byteLength s ≤ s.length := by
  induction s with
  | nil => exact le_rfl
  | cons u s ih =>
    have hu := h u List.mem_cons_self
    have hnot : ¬ (isHigh u || isLow u) = true := by
      rw [Bool.or_eq_true, not_or, isHigh_iff, isLow_iff]
      omega
    have hone : byteLength [u] = 1 := by
      have hpoint : pointOf [u] = u.toNat := if_neg hnot
      show ([[u]].flatMap charBytes).length = 1
      rw [List.flatMap_singleton, charBytes, List.length_map, hpoint, utf8, if_pos hu]
      rfl
    have happ := byteLength_append_le [u] s
    have hs := ih fun v hv => h v (List.mem_cons_of_mem u hv)
    rw [List.singleton_append, hone] at happ
    rw [List.length_cons]
    omega

private theorem lowerHex_lt {n : ℕ} (h : n < 16) : (lowerHex n).toNat < 0x80 := by
  have hall : ∀ n < 16, (lowerHex n).toNat < 0x80 := by decide
  exact hall n h

private theorem byteLength_unicodeEscape (u : UInt16) : byteLength (unicodeEscape u) ≤ 6 := by
  have hlt : u.toNat < 0x10000 := by simpa using u.toNat_lt
  refine byteLength_ascii fun v hv => ?_
  rcases List.mem_append.1 hv with hv | hv
  · have hall : (js "\\u").all (fun w => decide (w.toNat < 0x80)) = true := by decide +kernel
    exact of_decide_eq_true (List.all_eq_true.1 hall v hv)
  · simp only [List.mem_cons, List.not_mem_nil, or_false] at hv
    rcases hv with rfl | rfl | rfl | rfl <;> exact lowerHex_lt (by omega)

/-- A character of JSON text has six bytes at most. -/
private theorem byteLength_jsonChar {s c : JsString} (h : c ∈ chars s) : byteLength (jsonChar c) ≤ 6 := by
  rcases cases_of_mem_chars h with ⟨u, -, rfl⟩ | ⟨u, v, rfl, hu, hv⟩
  · have hshort : ∀ e ∈ [js "\\\"", js "\\\\", js "\\b", js "\\f", js "\\n", js "\\r", js "\\t"], byteLength e ≤ 6 := by
      decide +kernel
    unfold jsonChar
    dsimp only
    split
    · exact hshort _ (by simp)
    · split
      · exact hshort _ (by simp)
      · split
        · exact hshort _ (by simp)
        · split
          · exact hshort _ (by simp)
          · split
            · exact hshort _ (by simp)
            · split
              · exact hshort _ (by simp)
              · split
                · exact hshort _ (by simp)
                · split
                  · exact byteLength_unicodeEscape u
                  · have hone := length_charBytes_unit u
                    show ([[u]].flatMap charBytes).length ≤ 6
                    rw [List.flatMap_singleton]
                    omega
  · have hpair : chars [u, v] = [[u, v]] := by
      rw [chars, if_pos (by rw [hu, hv]; rfl)]
      rfl
    show (encodeUtf8 [u, v]).length ≤ 6
    rw [encodeUtf8, hpair, List.flatMap_singleton, charBytes, List.length_map]
    exact (length_utf8_le_four _).trans (by decide)

private theorem byteLength_quoted (s : JsString) : byteLength (quoted s) ≤ 6 * charCount s + 2 := by
  have hflat : ∀ cs : List JsString, (∀ c ∈ cs, c ∈ chars s) → byteLength (cs.flatMap jsonChar) ≤ 6 * cs.length := by
    intro cs hcs
    induction cs with
    | nil => exact le_rfl
    | cons c cs ih =>
      have happ := byteLength_append_le (jsonChar c) (cs.flatMap jsonChar)
      have hc := byteLength_jsonChar (hcs c List.mem_cons_self)
      have hrest := ih fun d hd => hcs d (List.mem_cons_of_mem c hd)
      rw [List.flatMap_cons, List.length_cons]
      omega
  have hquote : byteLength [0x22] = 1 := by decide +kernel
  have hall := hflat (chars s) fun _ hc => hc
  have hopen := byteLength_append_le [0x22] ((chars s).flatMap jsonChar ++ [0x22])
  have hclose := byteLength_append_le ((chars s).flatMap jsonChar) [0x22]
  show byteLength ([0x22] ++ ((chars s).flatMap jsonChar ++ [0x22])) ≤ 6 * charCount s + 2
  rw [charCount]
  omega

private theorem charCount_le (s : JsString) : charCount s ≤ s.length := by
  rw [charCount]
  fun_induction chars s with
  | case1 u v s hpair ih =>
    simp only [List.length_cons]
    omega
  | case2 u v s hpair ih =>
    simp only [List.length_cons] at ih ⊢
    omega
  | case3 u => exact le_rfl
  | case4 => exact le_rfl

/-! ### The bound -/

namespace PushMessage

variable (m : PushMessage)

private theorem charCount_tag : charCount m.tag ≤ 200 := by
  unfold tag
  split
  · exact (charCount_le _).trans (List.length_take_le 200 _)
  · cases m.kind <;> decide +kernel

private theorem charCount_url : charCount m.url ≤ 19 := by
  unfold url
  split
  · split
    · rename_i e _ hid
      simp only [isNodeId, Bool.and_eq_true, beq_iff_eq] at hid
      refine (charCount_le _).trans ?_
      rw [List.length_append, hid.1]
      decide +kernel
    · decide +kernel
  · decide +kernel

/-- Every field of the payload is bounded, the body by its cut. -/
private theorem byteLength_make {n : ℕ} (hn : 1 ≤ n) : byteLength (m.make n) ≤ 6 * n + 2136 := by
  have htitle : charCount (cut m.title 120) ≤ 120 := by
    by_cases h : 120 < charCount m.title
    · exact (charCount_cut (by decide) h).1.le
    · rw [cut, if_neg h]
      exact not_lt.1 h
  have hbody := (fit_spec m.text hn).1
  have hseverity : charCount m.severity.label ≤ 8 := by cases m.severity <;> decide +kernel
  have htag := m.charCount_tag
  have hurl := m.charCount_url
  have h1 := byteLength_quoted (cut m.title 120)
  have h2 := byteLength_quoted (fit m.text n)
  have h3 := byteLength_quoted m.severity.label
  have h4 := byteLength_quoted m.tag
  have h5 := byteLength_quoted m.url
  have k1 : byteLength (js "\x7b\"title\":") = 9 := by decide +kernel
  have k2 : byteLength (js ",\"body\":") = 8 := by decide +kernel
  have k3 : byteLength (js ",\"severity\":") = 12 := by decide +kernel
  have k4 : byteLength (js ",\"tag\":") = 7 := by decide +kernel
  have k5 : byteLength (js ",\"url\":") = 7 := by decide +kernel
  have k6 : byteLength (js "\x7d") = 1 := by decide +kernel
  have hsum : ∀ {a b : JsString} {x y : ℕ}, byteLength a ≤ x → byteLength b ≤ y → byteLength (a ++ b) ≤ x + y :=
    fun ha hb => (byteLength_append_le _ _).trans (Nat.add_le_add ha hb)
  have hall := hsum (hsum (hsum (hsum (hsum (hsum (hsum (hsum (hsum (hsum k1.le h1) k2.le) h2) k3.le) h3) k4.le) h4) k5.le) h5) k6.le
  unfold make
  exact hall.trans (by omega)

end PushMessage

/-- The cut ends when the payload fits, or at a length at which it must. -/
theorem byteLength_shrink (m : PushMessage) {n : ℕ} (hn : 1 ≤ n) : byteLength (shrink m n) ≤ 3800 := by
  induction n using Nat.strong_induction_on with
  | _ n ih =>
    rw [shrink]
    split
    · rename_i h
      exact ih (n * 7 / 10) (by omega) (by omega)
    · rename_i h
      have hmake := m.byteLength_make hn
      omega

/-- **A push that fits.**  The payload of every message has at most 3800 bytes, so that encryption never refuses it for
its size, and what it is encrypted to has at most 4096. -/
theorem payload_fits (m : PushMessage) :
    byteLength m.payload ≤ 3800 ∧ ∀ (c : PushCrypto) (p256dh auth : List UInt8) (salt : Bytes 16),
      encrypt c m.payload p256dh auth salt ≠ .error (js "EPUSHSIZE") ∧
        ∀ body, encrypt c m.payload p256dh auth salt = .ok body → body.length ≤ 4096 := by
  have hsize : byteLength m.payload ≤ 3800 := byteLength_shrink m (by decide)
  have hroom : ¬ MAX_PLAIN < byteLength m.payload := by
    rw [MAX_PLAIN]
    omega
  refine ⟨hsize, fun c p256dh auth salt => ?_⟩
  have hkey : js "EPUSHKEY" ≠ js "EPUSHSIZE" := by decide +kernel
  have hcurve : js "ERR_CRYPTO_ECDH_INVALID_PUBLIC_KEY" ≠ js "EPUSHSIZE" := by decide +kernel
  unfold encrypt
  rw [if_neg hroom]
  split
  · exact ⟨fun h => hkey (Except.error.inj h), fun body h => by cases h⟩
  · split
    · exact ⟨fun h => hkey (Except.error.inj h), fun body h => by cases h⟩
    · split
      · exact ⟨fun h => hcurve (Except.error.inj h), fun body h => by cases h⟩
      · rename_i secret _
        refine ⟨fun h => (by cases h), fun body h => ?_⟩
        rw [← Except.ok.inj h]
        simp only [Aead.length_flip, List.length_append, (c.gcm.tag _ _ _).2, c.asPublic.2, salt.2,
          List.length_cons, List.length_nil]
        rw [byteLength] at hsize
        omega

end Servitals
