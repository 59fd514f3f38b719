import Servitals.JsNumber
import Servitals.Lib.Runs

/-!
# The SMTP client

`sendMail` of `hub/lib/smtp.js`: the dialogue with a mail server, as a machine whose steps are the events of its sockets
and the moments at which `talk` goes on.  A chunk of bytes may arrive at any moment and hold any number of replies or a
part of one.  Each unit received carries the link it came over: in the clear, or through TLS, which hands over what the
authenticated peer sent.

What is written in the clear does not depend on the login, and no reply of the encrypted dialogue has a unit that came in
the clear (`secrets_only_over_tls`): when the link is switched nothing may be in the buffer or in the queue of replies
(`Guarded`).

How a chunk is decoded and Base64 are parameters.
-/

namespace Servitals

/-- `security` -/
inductive MailSecurity
  | starttls | tls | plain
  deriving DecidableEq

/-- What the bytes of the connection go through: nothing before it stands, the clear, or TLS, whose handshake comes
first. -/
inductive MailLink
  | closed | clear | handshaking | tls
  deriving DecidableEq

structure MailOptions where
  host : JsString
  security : MailSecurity
  user : JsString
  pass : JsString
  sender : JsString
  list : List JsString
  hostname : JsString
  /-- What `message` returns. -/
  text : JsString

/-! ### Commands -/

/-- What the client writes. -/
inductive MailCommand
  | ehlo | starttls | authPlain (user pass : JsString) | authLogin | loginUser (user : JsString)
  | loginPass (pass : JsString) | mailFrom (sender : JsString) | rcptTo (address : JsString) | data | message | quit

/-- Does the command have the login name or the password in it? -/
def MailCommand.isSecret : MailCommand → Bool
  | .authPlain _ _ | .loginUser _ | .loginPass _ => true
  | _ => false

def isLetter (u : UInt16) : Bool := unitIn 'a' 'z' u || unitIn 'A' 'Z' u

/-- `ADDRESS` -/
def isAddress (s : JsString) : Bool :=
  match split 0x40 s with
  | [name, domain] =>
    let tld := ((split 0x2e domain).getLast?).getD []
    let rest := domain.take (domain.length - tld.length - 1)
    1 ≤ name.length && name.length ≤ 64 &&
      name.all (fun u => isLetter u || isDigit u || (js "._%+-").contains u) &&
      1 ≤ rest.length && rest.length ≤ 253 && rest.all (fun u => isLetter u || isDigit u || (js ".-").contains u) &&
      2 ≤ tld.length && tld.length ≤ 63 && tld.all isLetter
  | _ => false

/-- `helo`: the own name, when it has the form of one. -/
def MailOptions.helo (o : MailOptions) : JsString :=
  if o.hostname != [] && o.hostname.length ≤ 253 && o.hostname.all (fun u => isLetter u || isDigit u || (js ".-").contains u)
  then o.hostname else js "servitals"

def LOOPBACK : List JsString := [js "localhost", js "127.0.0.1", js "::1"]

/-- Why `sendMail` refuses its options: an address that is none, or a plain connection that leaves this host or has a
login. -/
def MailOptions.refused (o : MailOptions) : Option JsString :=
  if !isAddress o.sender || o.list.isEmpty || !o.list.all isAddress then some (js "EADDRESS")
  else if o.security = .plain ∧ (!LOOPBACK.contains o.host || o.user != []) then some (js "ETLSREQUIRED")
  else none

/-! ### Replies -/

/-- A unit of what was received, and the link it came over. -/
structure Received where
  unit : UInt16
  link : MailLink
  deriving DecidableEq

/-- A reply, and what was received of it. -/
structure MailReply where
  code : ℕ
  lines : List JsString
  received : List Received

/-- The first complete line, and what follows its line break. -/
def cutLine : List Received → Option (List Received × List Received)
  | a :: b :: rest =>
    if a.unit = 0x0d ∧ b.unit = 0x0a then some ([], rest) else (cutLine (b :: rest)).map fun x => (a :: x.1, x.2)
  | _ => none

/-- `/^\d{3}( |$)/`: the last line of a reply. -/
def isFinalLine (l : List Received) : Bool :=
  (l.take 3).length == 3 && (l.take 3).all (fun u => isDigit u.unit) && (l.drop 3).head?.all fun u => u.unit == 0x20

/-- The complete lines up to the first that ends a reply, and what follows; at most as many as the number. -/
def cutReply : ℕ → List Received → Option (List (List Received) × List Received)
  | 0, _ => none
  | n + 1, buf => (cutLine buf).bind fun x =>
    if isFinalLine x.1 then some ([x.1], x.2) else (cutReply n x.2).map fun y => (x.1 :: y.1, y.2)

def unitsOf (l : List Received) : JsString := l.map Received.unit

/-- The first complete reply in the buffer, and what follows it. -/
def nextReply (buf : List Received) : Option (MailReply × List Received) :=
  (cutReply buf.length buf).map fun x =>
    (⟨decimal ((unitsOf (x.1.getLast?.getD [])).take 3), x.1.map fun l => (unitsOf l).drop 4,
      buf.take (buf.length - x.2.length)⟩, x.2)

/-- Does the word stand at the start of `s`, in any case, with no letter, digit or `_` after it? -/
def startsWithWord (word s : JsString) : Bool :=
  (lower word).isPrefixOf (lower s) &&
    (s.drop word.length).head?.all fun u => !(isLetter u || isDigit u || u == 0x5f)

/-- Does the word stand anywhere in `s`, in any case, as a word of its own? -/
def hasWord (word : JsString) : JsString → Bool
  | [] => false
  | u :: s =>
    startsWithWord word (u :: s) || hasWordAfter u s
where
  /-- The rest of the search, after a unit. -/
  hasWordAfter (before : UInt16) : JsString → Bool
    | [] => false
    | u :: s =>
      (!(isLetter before || isDigit before || before == 0x5f) && startsWithWord word (u :: s)) || hasWordAfter u s

/-! ### The state -/

/-- Where `talk` waits. -/
inductive MailPc
  | start | greet | ehlo | starttls | handshake | secured | ehloTls | plain | login | loginUser | loginPass | mailFrom
  | rcptTo (rest : List JsString) | data | message | pause
  deriving DecidableEq

/-- A command that was written, its line, and the link it went over. -/
structure Written where
  command : MailCommand
  line : JsString
  link : MailLink

/-- A reply that the dialogue took, and the link of the dialogue then. -/
structure Taken where
  reply : MailReply
  link : MailLink

/-- A call of `sendMail`.  `inbox` is the reply a promise was resolved with and `talk` has not gone on with; `ended` is
the outcome, an error's code unless the message was accepted.  `written` and `taken` are history variables. -/
structure Mail where
  secure : Bool
  link : MailLink
  buf : List Received
  waiting : Bool
  replies : List MailReply
  inbox : Option MailReply
  pc : MailPc
  ended : Option (Option JsString)
  written : List Written
  taken : List Taken

namespace Mail

/-- `sendMail` up to its connection. -/
def start (o : MailOptions) : Mail where
  secure := o.security = .tls
  link := .closed
  buf := []
  waiting := false
  replies := []
  inbox := none
  pc := .start
  ended := o.refused.map some
  written := []
  taken := []

/-- `finish` with an error. -/
def fail (s : Mail) (code : JsString) : Mail := { s with ended := some (some code) }

/-- `read`: the first reply of the queue, or the next one that comes. -/
def read (s : Mail) : Mail :=
  match s.replies with
  | r :: rs => { s with inbox := some r, replies := rs }
  | [] => { s with waiting := true }

/-- A complete reply goes to the one that waits for it, or to the queue. -/
def deliver (s : Mail) (r : MailReply) (rest : List Received) : Mail :=
  if s.waiting then { s with buf := rest, waiting := false, inbox := some r }
  else { s with buf := rest, replies := s.replies ++ [r] }

/-- The loop of `onData`; each round takes a reply out of the buffer. -/
def drain : ℕ → Mail → Mail
  | 0, s => s
  | n + 1, s => match nextReply s.buf with
    | none => s
    | some (r, rest) => drain n (s.deliver r rest)

/-- `onData`, with the units that the chunk decodes to. -/
def onData (s : Mail) (units : JsString) : Mail :=
  let s := { s with buf := s.buf ++ units.map fun u => ⟨u, s.link⟩ }
  if 65536 < s.buf.length then s.fail (js "ESMTP") else drain s.buf.length s

section
variable (b64 : JsString → JsString)

/-- The line of a command. -/
def lineOf (o : MailOptions) : MailCommand → JsString
  | .ehlo => js "EHLO " ++ o.helo
  | .starttls => js "STARTTLS"
  | .authPlain user pass => js "AUTH PLAIN " ++ b64 (0 :: user ++ 0 :: pass)
  | .authLogin => js "AUTH LOGIN"
  | .loginUser user => b64 user
  | .loginPass pass => b64 pass
  | .mailFrom sender => js "MAIL FROM:<" ++ sender ++ js ">"
  | .rcptTo address => js "RCPT TO:<" ++ address ++ js ">"
  | .data => js "DATA"
  | .message => o.text ++ [0x0d, 0x0a, 0x2e]
  | .quit => js "QUIT"

/-- `sock.write` of a command. -/
def write (o : MailOptions) (s : Mail) (c : MailCommand) : Mail :=
  { s with written := s.written ++ [⟨c, lineOf b64 o c ++ [0x0d, 0x0a], s.link⟩] }

/-- `cmd` up to its reply, which `talk` then waits for; a reply before its command is refused. -/
def ask (o : MailOptions) (s : Mail) (c : MailCommand) (pc : MailPc) : Mail :=
  if s.replies.isEmpty then write b64 o { s with waiting := true, pc := pc } c else s.fail (js "ESMTP")

/-- The codes the command that `talk` waits for may have. -/
def wanted : MailPc → List ℕ
  | .greet | .starttls => [220]
  | .plain | .loginPass => [235]
  | .login | .loginUser => [334]
  | .rcptTo _ => [250, 251]
  | .data => [354]
  | _ => [250]

/-- The recipients that are left, then the message. -/
def recipients (o : MailOptions) (s : Mail) : List JsString → Mail
  | [] => ask b64 o s .data .data
  | a :: rest => ask b64 o s (.rcptTo a) (.rcptTo rest)

/-- The login, when there is one, with what the server offers; then the message. -/
def authenticate (o : MailOptions) (s : Mail) (ehlo : MailReply) : Mail :=
  if o.user.isEmpty then ask b64 o s (.mailFrom o.sender) .mailFrom
  else if !s.secure then s.fail (js "ETLSREQUIRED")
  else
    let auth := (ehlo.lines.find? (startsWithWord (js "AUTH"))).getD []
    if hasWord (js "PLAIN") auth then ask b64 o s (.authPlain o.user o.pass) .plain
    else if hasWord (js "LOGIN") auth then ask b64 o s .authLogin .login
    else s.fail (js "SMTP_AUTH")

/-- `talk` goes on with a reply of a wanted code. -/
def proceed (o : MailOptions) (s : Mail) (r : MailReply) : Mail :=
  match s.pc with
  | .greet => ask b64 o s .ehlo .ehlo
  | .ehlo =>
    if o.security = .starttls then
      if r.lines.any (startsWithWord (js "STARTTLS")) then ask b64 o s .starttls .starttls
      else s.fail (js "ETLSREQUIRED")
    else authenticate b64 o s r
  | .starttls =>
    -- nothing may come in the clear after 220
    if !s.buf.isEmpty || !s.replies.isEmpty then s.fail (js "ESMTP")
    else { s with link := .handshaking, pc := .handshake }
  | .ehloTls => authenticate b64 o s r
  | .login => ask b64 o s (.loginUser o.user) .loginUser
  | .loginUser => ask b64 o s (.loginPass o.pass) .loginPass
  | .plain | .loginPass => ask b64 o s (.mailFrom o.sender) .mailFrom
  | .mailFrom => recipients b64 o s o.list
  | .rcptTo rest => recipients b64 o s rest
  | .data => ask b64 o s .message .message
  | .message => { s with pc := .pause }
  | .start | .handshake | .secured | .pause => s

/-- `talk` goes on: with the reply it waited for, or with the link that is TLS from now on. -/
def resume (o : MailOptions) (s : Mail) : Mail :=
  if s.pc = .secured then ask b64 o { s with secure := true } .ehlo .ehloTls
  else match s.inbox with
    | none => s
    | some r =>
      let s := { s with inbox := none, taken := s.taken ++ [⟨r, s.link⟩] }
      if (wanted s.pc).contains r.code then proceed b64 o s r
      else s.fail (js "SMTP_" ++ js (toString r.code))

/-- What can happen to a connection: it stands (over TLS, its handshake succeeded); a chunk comes; the handshake of
STARTTLS succeeds; `talk` goes on with what it waited for, or after its pause; an error, the close or the time limit. -/
inductive MailEvent
  | connect
  | data (chunk : List UInt8)
  | handshake
  | resume
  | pause
  | error (code : JsString)

variable (decode : List UInt8 → JsString)

/-- One event; nothing is heard or written any more once the call has ended. -/
def step (o : MailOptions) (s : Mail) (e : MailEvent) : Mail :=
  if s.ended.isSome then s
  else match e with
    | .connect =>
      if s.pc = .start then
        read { s with link := if o.security = .tls then .tls else .clear, pc := .greet }
      else s
    | .data chunk => if s.link = .clear ∨ s.link = .tls then s.onData (decode chunk) else s
    | .handshake => if s.pc = .handshake then { s with link := .tls, pc := .secured } else s
    | .resume => resume b64 o s
    | .pause =>
      if s.pc = .pause then
        if s.replies.isEmpty then { write b64 o s .quit with ended := some none } else s.fail (js "ESMTP")
      else s
    | .error code => s.fail code

end

end Mail

/-! ### What was received over which link -/

/-- Everything the reply was read from came through TLS. -/
def MailReply.Pure (r : MailReply) : Prop := ∀ u ∈ r.received, u.link = .tls

private theorem suffix_of_cutLine {buf l rest : List Received} (h : cutLine buf = some (l, rest)) : rest <:+ buf := by
  induction buf generalizing l rest with
  | nil => cases h
  | cons a buf ih =>
    cases buf with
    | nil => cases h
    | cons b buf =>
      unfold cutLine at h
      split at h
      · cases h
        exact (List.suffix_cons _ _).trans (List.suffix_cons _ _)
      · obtain ⟨x, hx, heq⟩ := Option.map_eq_some_iff.1 h
        cases heq
        exact (ih hx).trans (List.suffix_cons _ _)

private theorem suffix_of_cutReply {n : ℕ} {buf rest : List Received} {ls : List (List Received)}
    (h : cutReply n buf = some (ls, rest)) : rest <:+ buf := by
  induction n generalizing buf ls with
  | zero => cases h
  | succ n ih =>
    obtain ⟨x, hx, h⟩ := Option.bind_eq_some_iff.1 h
    have hline : x.2 <:+ buf := suffix_of_cutLine hx
    split at h
    · cases h
      exact hline
    · obtain ⟨y, hy, heq⟩ := Option.map_eq_some_iff.1 h
      cases heq
      exact (ih hy).trans hline

/-- A reply and what is left of the buffer are of the buffer. -/
private theorem mem_of_nextReply {buf rest : List Received} {r : MailReply} (h : nextReply buf = some (r, rest)) :
    r.received ⊆ buf ∧ rest ⊆ buf := by
  obtain ⟨x, hx, heq⟩ := Option.map_eq_some_iff.1 h
  cases heq
  exact ⟨List.take_subset _ _, (suffix_of_cutReply hx).subset⟩

namespace Mail

/-- Everything that waits to be read came through TLS. -/
structure Pure (s : Mail) : Prop where
  buf : ∀ u ∈ s.buf, u.link = .tls
  replies : ∀ r ∈ s.replies, r.Pure
  inbox : ∀ r, s.inbox = some r → r.Pure

/-- A chunk changes only what waits to be read, and may end the call. -/
structure Heard (s s' : Mail) : Prop where
  secure : s'.secure = s.secure
  link : s'.link = s.link
  pc : s'.pc = s.pc
  written : s'.written = s.written
  taken : s'.taken = s.taken
  clean : s.Pure → s'.Pure

theorem Heard.refl (s : Mail) : Heard s s := ⟨rfl, rfl, rfl, rfl, rfl, id⟩

theorem Heard.trans {s₁ s₂ s₃ : Mail} (h : Heard s₁ s₂) (h' : Heard s₂ s₃) : Heard s₁ s₃ :=
  ⟨h'.secure.trans h.secure, h'.link.trans h.link, h'.pc.trans h.pc, h'.written.trans h.written,
    h'.taken.trans h.taken, h'.clean ∘ h.clean⟩

private theorem heard_deliver {s : Mail} {r : MailReply} {rest : List Received} (h : nextReply s.buf = some (r, rest)) :
    Heard s (s.deliver r rest) := by
  obtain ⟨hr, hrest⟩ := mem_of_nextReply h
  unfold deliver
  split
  · refine ⟨rfl, rfl, rfl, rfl, rfl, fun hs => ⟨fun u hu => hs.buf u (hrest hu), hs.replies, ?_⟩⟩
    rintro r' ⟨⟩ u hu
    exact hs.buf u (hr hu)
  · refine ⟨rfl, rfl, rfl, rfl, rfl, fun hs => ⟨fun u hu => hs.buf u (hrest hu), fun r' hr' => ?_, hs.inbox⟩⟩
    rcases List.mem_append.1 hr' with hr' | hr'
    · exact hs.replies r' hr'
    · rw [List.mem_singleton.1 hr']
      exact fun u hu => hs.buf u (hr hu)

private theorem heard_drain (n : ℕ) (s : Mail) : Heard s (drain n s) := by
  induction n generalizing s with
  | zero => exact .refl s
  | succ n ih =>
    unfold drain
    cases h : nextReply s.buf with
    | none => exact .refl s
    | some x => exact (heard_deliver h).trans (ih _)

private theorem heard_onData (s : Mail) (units : JsString) :
    Heard { s with buf := s.buf ++ units.map fun u => ⟨u, s.link⟩ } (s.onData units) := by
  unfold onData
  dsimp only
  split
  · exact ⟨rfl, rfl, rfl, rfl, rfl, fun h => ⟨h.buf, h.replies, h.inbox⟩⟩
  · exact heard_drain _ _

/-! ### The invariant -/

/-- What holds of `secure` and the link where `talk` waits. -/
def Fits (o : MailOptions) (secure : Bool) (link : MailLink) : MailPc → Prop
  | .start => link = .closed ∧ (secure = true → o.security = .tls)
  | .greet | .ehlo => (secure = true → o.security = .tls) ∧ (link = .tls ↔ o.security = .tls)
  | .starttls => link ≠ .tls
  | .handshake => link = .handshaking
  | .secured | .ehloTls => link = .tls
  | .plain | .login | .loginUser | .loginPass => link = .tls ∧ o.user ≠ []
  | .mailFrom | .rcptTo _ | .data | .message | .pause => link = .tls ∨ o.security = .plain

/-- Only over TLS was the login written, and only of what came through TLS were replies read since the link is TLS.
Before the handshake there is nothing that waits to be read. -/
structure Guarded (o : MailOptions) (s : Mail) : Prop where
  fits : Fits o s.secure s.link s.pc
  quiet : s.pc = .start ∨ s.pc = .handshake → s.buf = [] ∧ s.replies = [] ∧ s.inbox = none
  clean : s.link = .tls → s.Pure
  written : ∀ w ∈ s.written, w.command.isSecret = true → w.link = .tls ∧ o.user ≠ []
  taken : ∀ t ∈ s.taken, t.link = .tls → t.reply.Pure

private theorem guarded_start (o : MailOptions) : Guarded o (start o) where
  fits := ⟨rfl, fun h => by simpa [start] using h⟩
  quiet := fun _ => ⟨rfl, rfl, rfl⟩
  clean := fun h => by cases h
  written := fun w hw => absurd hw List.not_mem_nil
  taken := fun t ht => absurd ht List.not_mem_nil

namespace Guarded

variable {o : MailOptions} {s : Mail} {b64 : JsString → JsString}

theorem fail (h : Guarded o s) (code : JsString) : Guarded o (s.fail code) :=
  ⟨h.fits, h.quiet, fun hl => ⟨(h.clean hl).buf, (h.clean hl).replies, (h.clean hl).inbox⟩, h.written, h.taken⟩

theorem onData (h : Guarded o s) (hlink : s.link = .clear ∨ s.link = .tls) (units : JsString) :
    Guarded o (s.onData units) := by
  have hheard := heard_onData s units
  have hlink' : (s.onData units).link = s.link := hheard.link
  have hpc : (s.onData units).pc = s.pc := hheard.pc
  refine ⟨?_, fun hq => ?_, fun hl => ?_, ?_, ?_⟩
  · rw [show (s.onData units).secure = s.secure from hheard.secure, hlink', hpc]
    exact h.fits
  · -- no chunk is heard there
    have hfits := h.fits
    rw [hpc] at hq
    rcases hq with hq | hq
    · rw [hq] at hfits
      rcases hlink with hlink | hlink <;> exact absurd (hlink.symm.trans hfits.1) (by decide)
    · rw [hq] at hfits
      rcases hlink with hlink | hlink <;> exact absurd (hlink.symm.trans hfits) (by decide)
  · rw [hlink'] at hl
    have hs := h.clean hl
    refine hheard.clean ⟨fun u hu => ?_, hs.replies, hs.inbox⟩
    rcases List.mem_append.1 hu with hu | hu
    · exact hs.buf u hu
    · obtain ⟨v, -, rfl⟩ := List.mem_map.1 hu
      exact hl
  · rw [show (s.onData units).written = s.written from hheard.written]
    exact h.written
  · rw [show (s.onData units).taken = s.taken from hheard.taken]
    exact h.taken

/-- A command is written where its place allows it. -/
theorem ask (h : Guarded o s) {c : MailCommand} {pc : MailPc} (hfits : Fits o s.secure s.link pc)
    (hpc : pc ≠ .start ∧ pc ≠ .handshake) (hsecret : c.isSecret = true → s.link = .tls ∧ o.user ≠ []) :
    Guarded o (ask b64 o s c pc) := by
  unfold Mail.ask
  split
  · refine ⟨hfits, fun hq => absurd hq (not_or.2 hpc),
      fun hl => ⟨(h.clean hl).buf, (h.clean hl).replies, (h.clean hl).inbox⟩, fun w hw => ?_, h.taken⟩
    rcases List.mem_append.1 hw with hw | hw
    · exact h.written w hw
    · rw [List.mem_singleton.1 hw]
      exact hsecret
  · exact h.fail _

private theorem recipients (h : Guarded o s) (hlink : s.link = .tls ∨ o.security = .plain) (rest : List JsString) :
    Guarded o (recipients b64 o s rest) := by
  cases rest with
  | nil => exact h.ask hlink (by decide) (fun hc => by cases hc)
  | cons a rest => exact h.ask hlink (by simp) (fun hc => by cases hc)

private theorem authenticate (h : Guarded o s) (hlink : s.link = .tls ∨ o.security = .plain)
    (hsecure : s.secure = true → s.link = .tls) (ehlo : MailReply) : Guarded o (authenticate b64 o s ehlo) := by
  unfold Mail.authenticate
  split
  · exact h.ask hlink (by decide) (fun hc => by cases hc)
  · rename_i huser
    have huser : o.user ≠ [] := fun hnil => huser (by rw [hnil]; rfl)
    split
    · exact h.fail _
    · rename_i hs
      have hlink : s.link = .tls := hsecure (by simpa using hs)
      dsimp only
      split
      · exact h.ask ⟨hlink, huser⟩ (by decide) (fun _ => ⟨hlink, huser⟩)
      · split
        · exact h.ask ⟨hlink, huser⟩ (by decide) (fun hc => by cases hc)
        · exact h.fail _

/-- `talk` goes on with a reply, which is no longer in the inbox. -/
private theorem proceed (h : Guarded o s) (hinbox : s.inbox = none) (r : MailReply) :
    Guarded o (proceed b64 o s r) := by
  have hfits := h.fits
  unfold Mail.proceed
  cases hpc : s.pc with
  | start => exact h
  | greet =>
    rw [hpc] at hfits
    exact h.ask hfits (by decide) (fun hc => by cases hc)
  | ehlo =>
    rw [hpc] at hfits
    dsimp only
    split
    · rename_i hstarttls
      split
      · refine h.ask (fun hl => ?_) (by decide) (fun hc => by cases hc)
        exact absurd (hstarttls.symm.trans (hfits.2.1 hl)) (by decide)
      · exact h.fail _
    · rename_i hno
      refine h.authenticate ?_ (fun hs => hfits.2.2 (hfits.1 hs)) r
      cases hmode : o.security with
      | starttls => exact absurd hmode hno
      | tls => exact Or.inl (hfits.2.2 hmode)
      | plain => exact Or.inr rfl
  | starttls =>
    rw [hpc] at hfits
    dsimp only
    split
    · exact h.fail _
    · rename_i hempty
      simp only [Bool.or_eq_true, Bool.not_eq_true', not_or, Bool.not_eq_false, List.isEmpty_iff] at hempty
      exact ⟨rfl, fun _ => ⟨hempty.1, hempty.2, hinbox⟩, fun hl => (by cases hl), h.written, h.taken⟩
  | handshake => exact h
  | secured => exact h
  | ehloTls =>
    rw [hpc] at hfits
    exact h.authenticate (Or.inl hfits) (fun _ => hfits) r
  | plain =>
    rw [hpc] at hfits
    exact h.ask (Or.inl hfits.1) (by decide) (fun hc => by cases hc)
  | login =>
    rw [hpc] at hfits
    exact h.ask hfits (by decide) (fun _ => hfits)
  | loginUser =>
    rw [hpc] at hfits
    exact h.ask hfits (by decide) (fun _ => hfits)
  | loginPass =>
    rw [hpc] at hfits
    exact h.ask (Or.inl hfits.1) (by decide) (fun hc => by cases hc)
  | mailFrom =>
    rw [hpc] at hfits
    exact h.recipients hfits _
  | rcptTo rest =>
    rw [hpc] at hfits
    exact h.recipients hfits _
  | data =>
    rw [hpc] at hfits
    exact h.ask hfits (by decide) (fun hc => by cases hc)
  | message =>
    rw [hpc] at hfits
    exact ⟨hfits, fun hq => (by rcases hq with hq | hq <;> cases hq),
      fun hl => ⟨(h.clean hl).buf, (h.clean hl).replies, (h.clean hl).inbox⟩, h.written, h.taken⟩
  | pause => exact h

/-- A reply is taken out of the inbox. -/
theorem take (h : Guarded o s) {r : MailReply} (hr : s.inbox = some r) :
    Guarded o { s with inbox := none, taken := s.taken ++ [⟨r, s.link⟩] } where
  fits := h.fits
  quiet := fun hq => ⟨(h.quiet hq).1, (h.quiet hq).2.1, rfl⟩
  clean := fun hl => ⟨(h.clean hl).buf, (h.clean hl).replies, fun _ h => by cases h⟩
  written := h.written
  taken := by
    intro t ht hl
    rcases List.mem_append.1 ht with ht | ht
    · exact h.taken t ht hl
    · rw [List.mem_singleton.1 ht] at hl ⊢
      exact (h.clean hl).inbox r hr

theorem resume (h : Guarded o s) : Guarded o (resume b64 o s) := by
  unfold Mail.resume
  split
  · rename_i hpc
    have hlink : s.link = .tls := by
      have hfits := h.fits
      rw [hpc] at hfits
      exact hfits
    have h' : Guarded o { s with secure := true } :=
      ⟨by rw [hpc]; exact hlink, h.quiet, fun hl => ⟨(h.clean hl).buf, (h.clean hl).replies, (h.clean hl).inbox⟩,
        h.written, h.taken⟩
    exact h'.ask hlink (by decide) (fun hc => by cases hc)
  · cases hr : s.inbox with
    | none => exact h
    | some r =>
      dsimp only
      split
      · exact (h.take hr).proceed rfl r
      · exact (h.take hr).fail _

/-- The connection stands, over TLS when that is its mode; `talk` waits for the greeting. -/
private theorem connect (h : Guarded o s) (hpc : s.pc = .start) :
    Guarded o (read { s with link := if o.security = .tls then .tls else .clear, pc := .greet }) := by
  have hfits := h.fits
  rw [hpc] at hfits
  obtain ⟨hbuf, hreplies, hinbox⟩ := h.quiet (Or.inl hpc)
  unfold read
  rw [hreplies]
  dsimp only
  refine ⟨⟨hfits.2, ?_⟩, fun hq => (by rcases hq with hq | hq <;> cases hq), fun _ => ⟨?_, ?_, ?_⟩, h.written, h.taken⟩
  · dsimp only
    split <;> simp [*]
  · show ∀ u ∈ s.buf, u.link = .tls
    rw [hbuf]
    exact fun u hu => absurd hu List.not_mem_nil
  · exact fun r hr => absurd hr List.not_mem_nil
  · show ∀ r, s.inbox = some r → r.Pure
    rw [hinbox]
    exact fun r hr => by cases hr

theorem step (h : Guarded o s) {decode : List UInt8 → JsString} (e : MailEvent) :
    Guarded o (step b64 decode o s e) := by
  unfold Mail.step
  split
  · exact h
  · cases e with
    | connect =>
      dsimp only
      split
      · exact h.connect ‹_›
      · exact h
    | data chunk =>
      dsimp only
      split
      · exact h.onData ‹_› _
      · exact h
    | handshake =>
      dsimp only
      split
      · rename_i hpc
        obtain ⟨hbuf, hreplies, hinbox⟩ := h.quiet (Or.inr hpc)
        refine ⟨rfl, fun hq => (by rcases hq with hq | hq <;> cases hq), fun _ => ⟨?_, ?_, ?_⟩, h.written, h.taken⟩
        · show ∀ u ∈ s.buf, u.link = .tls
          rw [hbuf]
          exact fun u hu => absurd hu List.not_mem_nil
        · show ∀ r ∈ s.replies, r.Pure
          rw [hreplies]
          exact fun r hr => absurd hr List.not_mem_nil
        · show ∀ r, s.inbox = some r → r.Pure
          rw [hinbox]
          exact fun r hr => by cases hr
      · exact h
    | resume => exact h.resume
    | pause =>
      dsimp only
      split
      · split
        · refine ⟨h.fits, h.quiet, fun hl => ⟨(h.clean hl).buf, (h.clean hl).replies, (h.clean hl).inbox⟩,
            fun w hw => ?_, h.taken⟩
          rcases List.mem_append.1 hw with hw | hw
          · exact h.written w hw
          · rw [List.mem_singleton.1 hw]
            exact fun hc => by cases hc
        · exact h.fail _
      · exact h
    | error code => exact h.fail code

end Guarded

/-- A call that has ended stays as it is. -/
private theorem run_of_ended {b64 : JsString → JsString} {decode : List UInt8 → JsString} {o : MailOptions} {s : Mail}
    (h : s.ended.isSome = true) (es : List MailEvent) : Runs.run (step b64 decode o) s es = s := by
  induction es with
  | nil => rfl
  | cons e es ih =>
    have hstep : step b64 decode o s e = s := if_pos h
    rw [Runs.run_cons, hstep, ih]

/-! ### What is written in the clear -/

/-- The lines that were written over a link that is not TLS, in order. -/
def clearLines (s : Mail) : List JsString := (s.written.filter fun w => w.link ≠ .tls).map Written.line

/-- Over TLS nothing more is written in the clear. -/
structure Sealed (s s' : Mail) : Prop where
  link : s'.link = .tls
  lines : clearLines s' = clearLines s

section

variable {o o' : MailOptions} {s : Mail} {b64 : JsString → JsString} {decode : List UInt8 → JsString}

private theorem sealed_write (h : s.link = .tls) (c : MailCommand) : Sealed s (write b64 o s c) := by
  refine ⟨h, ?_⟩
  simp [clearLines, write, h]

private theorem sealed_ask (h : s.link = .tls) (c : MailCommand) (pc : MailPc) : Sealed s (ask b64 o s c pc) := by
  unfold ask
  split
  · have hwrite := @sealed_write o { s with waiting := true, pc := pc } b64 h c
    exact ⟨hwrite.link, hwrite.lines⟩
  · exact ⟨h, rfl⟩

private theorem sealed_recipients (h : s.link = .tls) (rest : List JsString) : Sealed s (recipients b64 o s rest) := by
  cases rest with
  | nil => exact sealed_ask h _ _
  | cons a rest => exact sealed_ask h _ _

private theorem sealed_authenticate (h : s.link = .tls) (ehlo : MailReply) : Sealed s (authenticate b64 o s ehlo) := by
  unfold authenticate
  split
  · exact sealed_ask h _ _
  · split
    · exact ⟨h, rfl⟩
    · dsimp only
      split
      · exact sealed_ask h _ _
      · split
        · exact sealed_ask h _ _
        · exact ⟨h, rfl⟩

private theorem sealed_proceed (h : s.link = .tls) (hpc : s.pc ≠ .starttls) (r : MailReply) :
    Sealed s (proceed b64 o s r) := by
  unfold proceed
  split
  · exact sealed_ask h _ _
  · split
    · split
      · exact sealed_ask h _ _
      · exact ⟨h, rfl⟩
    · exact sealed_authenticate h r
  · exact absurd ‹_› hpc
  · exact sealed_authenticate h r
  · exact sealed_ask h _ _
  · exact sealed_ask h _ _
  · exact sealed_ask h _ _
  · exact sealed_ask h _ _
  · exact sealed_recipients h _
  · exact sealed_recipients h _
  · exact sealed_ask h _ _
  all_goals exact ⟨h, rfl⟩

private theorem sealed_resume (hg : Guarded o s) (h : s.link = .tls) : Sealed s (resume b64 o s) := by
  unfold resume
  split
  · have hask := @sealed_ask o { s with secure := true } b64 h .ehlo .ehloTls
    exact ⟨hask.link, hask.lines⟩
  · cases hr : s.inbox with
    | none => exact ⟨h, rfl⟩
    | some r =>
      dsimp only
      split
      · have hpc : s.pc ≠ .starttls := by
          intro hpc
          have hfits := hg.fits
          rw [hpc] at hfits
          exact hfits h
        have hproceed :=
          @sealed_proceed o { s with inbox := none, taken := s.taken ++ [⟨r, s.link⟩] } b64 h hpc r
        exact ⟨hproceed.link, hproceed.lines⟩
      · exact ⟨h, rfl⟩

private theorem sealed_step (hg : Guarded o s) (h : s.link = .tls) (e : MailEvent) :
    Sealed s (step b64 decode o s e) := by
  have hfits := hg.fits
  unfold step
  split
  · exact ⟨h, rfl⟩
  · cases e with
    | connect =>
      dsimp only
      split
      · rename_i hpc
        rw [hpc] at hfits
        exact absurd (h.symm.trans hfits.1) (by decide)
      · exact ⟨h, rfl⟩
    | data chunk =>
      dsimp only
      split
      · have hheard := heard_onData s (decode chunk)
        refine ⟨hheard.link.trans h, ?_⟩
        unfold clearLines
        rw [show (s.onData (decode chunk)).written = s.written from hheard.written]
      · exact ⟨h, rfl⟩
    | handshake =>
      dsimp only
      split
      · exact ⟨rfl, rfl⟩
      · exact ⟨h, rfl⟩
    | resume => exact sealed_resume hg h
    | pause =>
      dsimp only
      split
      · split
        · have hwrite := @sealed_write o s b64 h .quit
          exact ⟨hwrite.link, hwrite.lines⟩
        · exact ⟨h, rfl⟩
      · exact ⟨h, rfl⟩
    | error code => exact ⟨h, rfl⟩

/-- The options but for the login. -/
structure LoginApart (o o' : MailOptions) : Prop where
  eq : o' = { o with user := o'.user, pass := o'.pass }
  plain : o.security = .plain → o.user = [] ∧ o'.user = []

private theorem ask_same (h : LoginApart o o') (s : Mail) (c : MailCommand) (pc : MailPc) :
    ask b64 o' s c pc = ask b64 o s c pc := by
  rw [h.eq]
  unfold ask write
  cases c <;> rfl

/-- Before TLS the dialogue does not depend on the login. -/
private theorem resume_same (h : LoginApart o o') (hg : Guarded o s) (hlink : s.link ≠ .tls) :
    resume b64 o' s = resume b64 o s := by
  have hsecurity : o'.security = o.security := by rw [h.eq]
  have hsender : o'.sender = o.sender := by rw [h.eq]
  have hlist : o'.list = o.list := by rw [h.eq]
  have hask := @ask_same o o' b64 h
  have hfits := hg.fits
  unfold resume
  simp only [hask]
  split
  · rfl
  · cases hr : s.inbox with
    | none => rfl
    | some r =>
      dsimp only
      split
      · unfold proceed
        dsimp only
        -- where the login is used the link is TLS, or there is no login
        cases hpc : s.pc with
        | ehlo =>
          rw [hpc] at hfits
          dsimp only
          rw [hsecurity]
          split
          · simp only [hask]
          · rename_i hno
            have hplain : o.security = .plain := by
              cases hmode : o.security with
              | starttls => exact absurd hmode hno
              | tls => exact absurd (hfits.2.2 hmode) hlink
              | plain => rfl
            obtain ⟨hu, hu'⟩ := h.plain hplain
            unfold authenticate
            simp only [hu, hu', hask, hsender, List.isEmpty_nil, if_true]
        | ehloTls => rw [hpc] at hfits; exact absurd hfits hlink
        | plain => rw [hpc] at hfits; exact absurd hfits.1 hlink
        | login => rw [hpc] at hfits; exact absurd hfits.1 hlink
        | loginUser => rw [hpc] at hfits; exact absurd hfits.1 hlink
        | loginPass => rw [hpc] at hfits; exact absurd hfits.1 hlink
        | mailFrom =>
          dsimp only
          rw [hlist]
          cases o.list <;> exact hask _ _ _
        | rcptTo rest => cases rest <;> exact hask _ _ _
        | greet => exact hask _ _ _
        | data => exact hask _ _ _
        | _ => rfl
      · rfl

private theorem step_same (h : LoginApart o o') (hg : Guarded o s) (hlink : s.link ≠ .tls) (e : MailEvent) :
    step b64 decode o' s e = step b64 decode o s e := by
  have hsecurity : o'.security = o.security := by rw [h.eq]
  unfold step
  split
  · rfl
  · cases e with
    | connect => simp only [hsecurity]
    | resume => exact resume_same h hg hlink
    | data chunk => rfl
    | handshake => rfl
    | pause => rfl
    | error code => rfl

/-- Two calls whose options differ in the login write the same lines in the clear, whatever happens to both. -/
private theorem clearLines_run (h : LoginApart o o') {s s' : Mail} (hg : Guarded o s) (hg' : Guarded o' s')
    (hs : s' = s ∨ s.link = .tls ∧ s'.link = .tls ∧ clearLines s' = clearLines s) (es : List MailEvent) :
    clearLines (Runs.run (step b64 decode o') s' es) = clearLines (Runs.run (step b64 decode o) s es) := by
  induction es generalizing s s' with
  | nil =>
    rcases hs with rfl | ⟨-, -, hlines⟩
    · rfl
    · exact hlines
  | cons e es ih =>
    rw [Runs.run_cons, Runs.run_cons]
    refine ih (hg.step e) (hg'.step e) ?_
    have hboth : s.link = .tls → s'.link = .tls → clearLines s' = clearLines s →
        (step b64 decode o s e).link = .tls ∧ (step b64 decode o' s' e).link = .tls ∧
          clearLines (step b64 decode o' s' e) = clearLines (step b64 decode o s e) := by
      intro hl hl' hlines
      have h1 := @sealed_step o s b64 decode hg hl e
      have h2 := @sealed_step o' s' b64 decode hg' hl' e
      exact ⟨h1.link, h2.link, h2.lines.trans (hlines.trans h1.lines.symm)⟩
    rcases hs with rfl | ⟨hl, hl', hlines⟩
    · by_cases hlink : s'.link = .tls
      · exact Or.inr (hboth hlink hlink rfl)
      · exact Or.inl (step_same h hg hlink e)
    · exact Or.inr (hboth hl hl' hlines)

end

private theorem refused_congr {o : MailOptions} {user pass : JsString}
    (h : o.security = .plain → (o.user = [] ↔ user = [])) :
    MailOptions.refused { o with user := user, pass := pass } = o.refused := by
  unfold MailOptions.refused
  by_cases hplain : o.security = .plain
  · have huser := h hplain
    by_cases hu : o.user = []
    · simp [hu, huser.1 hu]
    · have hu' : user ≠ [] := fun he => hu (huser.2 he)
      simp [hu, hu']
  · simp [hplain]

/-- Whatever the server sends, in whatever chunks and at whatever moments: the lines that are written over a link that is
not TLS are the same for every login name and password, and those with the login go over TLS, after its handshake; no
reply of the encrypted dialogue was read from anything that came in the clear; and with a login nothing at all is written
without TLS. -/
theorem secrets_only_over_tls (b64 : JsString → JsString) (decode : List UInt8 → JsString) (o : MailOptions)
    (es : List MailEvent) :
    let s := Runs.run (step b64 decode o) (start o) es
    (∀ user pass, (o.security = .plain → (o.user = [] ↔ user = [])) →
      let o' := { o with user := user, pass := pass }
      clearLines (Runs.run (step b64 decode o') (start o') es) = clearLines s) ∧
      (∀ w ∈ s.written, w.command.isSecret = true → w.link = .tls) ∧
      (∀ t ∈ s.taken, t.link = .tls → ∀ u ∈ t.reply.received, u.link = .tls) ∧
      (o.security = .plain → (o.user ≠ [] → s.written = []) ∧ ∀ w ∈ s.written, w.command.isSecret = false) := by
  intro s
  have hguarded : Guarded o s := Runs.invariant (fun _ e h => h.step e) (guarded_start o) es
  have hsilent : ∀ o : MailOptions, o.refused.isSome = true →
      (Runs.run (step b64 decode o) (start o) es).written = [] := by
    intro o hrefused
    rw [run_of_ended (by rw [start, Option.isSome_map]; exact hrefused)]
    rfl
  have hplain : o.security = .plain → o.user ≠ [] → o.refused.isSome = true := by
    intro hmode huser
    unfold MailOptions.refused
    split
    · rfl
    · rw [if_pos ⟨hmode, by simp [huser]⟩]
      rfl
  refine ⟨fun user pass huser => ?_, fun w hw hsecret => (hguarded.written w hw hsecret).1, hguarded.taken,
    fun hmode => ⟨fun huser => hsilent o (hplain hmode huser), fun w hw => ?_⟩⟩
  · intro o'
    have hrefused : o'.refused = o.refused := refused_congr huser
    cases hcode : o.refused with
    | some code =>
      have hnone : s.written = [] := hsilent o (by rw [hcode]; rfl)
      unfold clearLines
      rw [hsilent o' (by rw [hrefused, hcode]; rfl), hnone]
    | none =>
      have hno : o.security = .plain → o.user = [] := by
        intro hmode
        by_contra hu
        have := hplain hmode hu
        rw [hcode] at this
        cases this
      refine clearLines_run ⟨rfl, fun hmode => ⟨hno hmode, (huser hmode).1 (hno hmode)⟩⟩ (guarded_start o)
        (guarded_start o') (Or.inl ?_) es
      unfold start
      rw [hrefused]
  · cases hsecret : w.command.isSecret with
    | false => rfl
    | true =>
      have hnone := hsilent o (hplain hmode (hguarded.written w hw hsecret).2)
      have hw : w ∈ (Runs.run (step b64 decode o) (start o) es).written := hw
      rw [hnone] at hw
      cases hw

private def relay : MailOptions :=
  ⟨js "mail.example.com", .starttls, js "ann", js "secret", js "a@example.com", [js "b@example.com"], js "nas", js "hi"⟩

private def said (s : String) : MailEvent := .data ((js s).map fun u => u.toUInt8)

/-- A dialogue with STARTTLS and a login, one chunk of it in two parts. -/
private def dialogue : List MailEvent := [.connect, said "220 hi\r\n", .resume, said "250-mail\r\n250 START",
  said "TLS\r\n", .resume, said "220 go\r\n", .resume, .handshake, .resume, said "250 AUTH LOGIN PLAIN\r\n", .resume,
  said "235 ok\r\n", .resume, said "250 ok\r\n", .resume, said "250 ok\r\n", .resume, said "354 go\r\n", .resume,
  said "250 ok\r\n", .resume, .pause]

example : (Runs.run (step id (fun b => b.map fun x => x.toUInt16) relay) (start relay) dialogue).ended = some none := by
  decide +kernel

end Mail

end Servitals
