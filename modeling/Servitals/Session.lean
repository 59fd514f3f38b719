import Servitals.JsString
import Servitals.Lib.Runs

/-!
# Sessions and account changes

`hub/server.js` and `hub/lib/admin.js`: the login in force (`admin.json`, else the environment), the cookies that name
it, and the account change, which reads the login when its body is complete and saves the next generation after one
await or two.  Between them any other step can come.

Parameters are the JSON and base64url text of a session, the signature, and what `describeHash` says of a hash.
`issued`, `ended` and `inForce` are history variables: the sessions handed out, those handed out before the last
account change was saved, and the logins that were in force.
-/

namespace Servitals

/-- A record of `admin.json`. -/
structure AdminRec where
  user : JsString
  hash : JsString
  gen : ℕ
  deriving DecidableEq

/-- The login in force; a hash or a password that is not there is empty. -/
structure Creds where
  user : JsString
  hash : JsString
  plain : JsString
  gen : ℕ
  deriving DecidableEq

/-- What a cookie says: the user, the login generation, and when it runs out. -/
structure Session where
  u : JsString
  g : ℕ
  exp : ℤ
  deriving DecidableEq

/-- The environment, the hashes that are of the scrypt form, and the cookie's text and signature. -/
structure Site where
  user : JsString
  passHash : JsString
  pass : JsString
  sessionMs : ℤ
  isScrypt : JsString → Bool
  payload : Session → JsString
  parse : JsString → Option Session
  sign : JsString → JsString

/-- What is documented of the text: a payload reads as its session, and base64url has no point in it. -/
structure Site.Readable (site : Site) : Prop where
  parse_payload : ∀ s, site.parse (site.payload s) = some s
  payload_ne : ∀ s, site.payload s ≠ []
  payload_point : ∀ s, 0x2e ∉ site.payload s
  sign_ne : ∀ p, site.sign p ≠ []
  sign_point : ∀ p, 0x2e ∉ site.sign p

/-! ### The admin store -/

/-- `USER_RE`: `/^[A-Za-z0-9._-]{1,64}$/`. -/
def isUserName (s : JsString) : Bool :=
  s != [] && s.length ≤ 64 && s.all fun u =>
    unitIn 'A' 'Z' u || unitIn 'a' 'z' u || unitIn '0' '9' u || u == 0x2e || u == 0x5f || u == 0x2d

/-- The store; the file has a time, and a record when it reads as a valid one. -/
structure AdminStore where
  file : Option (ℤ × Option AdminRec)
  cached : Option AdminRec
  mtime : Option ℤ
  broken : Bool

namespace AdminStore

/-- `load`: read again when the time of the file has changed; a file that does not parse keeps the last good copy. -/
def load (st : AdminStore) : Option AdminRec × AdminStore :=
  match st.file with
  | none => (none, { st with cached := none, mtime := none, broken := false })
  | some (t, content) =>
    if st.mtime = some t then (st.cached, st)
    else match content with
      | some a => (some a, { st with cached := some a, mtime := some t, broken := false })
      | none => (st.cached, { st with mtime := some t, broken := true })

/-- `save`: none when it throws. -/
def save (site : Site) (st : AdminStore) (a : AdminRec) (t : ℤ) : Option AdminStore :=
  if isUserName a.user && site.isScrypt a.hash then some { st with file := some (t, some a), mtime := none } else none

@[simp]
theorem load_load (st : AdminStore) : st.load.2.load.1 = st.load.1 := by
  obtain ⟨file, cached, mtime, broken⟩ := st
  rcases file with _ | ⟨t, content⟩
  · rfl
  · by_cases h : mtime = some t
    · simp [load, h]
    · rcases content with _ | a <;> simp [load, h]

end AdminStore

/-! ### Cookies -/

/-- `creds` -/
def creds (site : Site) (st : AdminStore) : Creds × AdminStore :=
  match st.load with
  | (some a, st) => (⟨a.user, a.hash, [], a.gen⟩, st)
  | (none, st) => (⟨site.user, site.passHash, site.pass, 0⟩, st)

/-- The text of a session's cookie. -/
def cookieOf (site : Site) (s : Session) : JsString := site.payload s ++ 0x2e :: site.sign (site.payload s)

/-- `makeCookie`, as the session the cookie says. -/
def makeCookie (site : Site) (st : AdminStore) (now : ℤ) : Session × AdminStore :=
  let (c, st) := creds site st
  (⟨c.user, c.gen, now + site.sessionMs⟩, st)

/-- `validCookie`; the digests that `eq` compares are taken for what they are digests of. -/
def validCookie (site : Site) (st : AdminStore) (c : JsString) (now : ℤ) : Bool × AdminStore :=
  match split 0x2e c with
  | payload :: mac :: _ =>
    if payload = [] ∨ mac = [] ∨ mac ≠ site.sign payload then (false, st)
    else match site.parse payload with
      | none => (false, st)
      | some s =>
        let (c, st) := creds site st
        (now < s.exp && s.u == c.user && s.g == c.gen, st)
  | _ => (false, st)

/-! ### The account change -/

/-- The body of an account change: the name and the password, when they are texts. -/
structure AccountBody where
  user : Option JsString
  password : Option JsString

/-- An account change after its body was read: the login then, and the name and password it is to have. -/
structure Change where
  current : Creds
  user : JsString
  password : JsString
  deriving DecidableEq

structure Gate where
  store : AdminStore
  reading : ℕ
  checking : List Change
  hashing : List Change
  issued : List Session
  ended : List Session
  inForce : List (JsString × ℕ)

namespace Gate

/-- What happens at the hub: a login succeeds; a request comes with a cookie; an account change comes with one; its
body is complete; its password check ends; the hash of its new password is there.  A step that may save says whether
the write succeeds and the time of the file. -/
inductive Op
  | login (now : ℤ)
  | request (cookie : JsString) (now : ℤ)
  | account (cookie : JsString) (now : ℤ)
  | body (b : Option AccountBody)
  | checked (c : Change) (ok written : Bool) (mtime now : ℤ)
  | hashed (c : Change) (hash : JsString) (written : Bool) (mtime now : ℤ)

/-- The body of an account change is complete: what it is refused for, or the change. -/
def changeOf (site : Site) (st : AdminStore) (b : Option AccountBody) : Option Change × AdminStore :=
  match b with
  | none => (none, st)
  | some b =>
    let (current, st) := creds site st
    let user := (b.user.filter (· ≠ [])).getD current.user
    let password := b.password.getD []
    if !isUserName user || (password != [] && password.length < 8) then (none, st)
    else (some ⟨current, user, password⟩, st)

/-- `admin.save` of the next generation, and a cookie for the browser that asked. -/
def finish (site : Site) (g : Gate) (c : Change) (hash : JsString) (written : Bool) (mtime now : ℤ) : Gate :=
  let a : AdminRec := ⟨c.user, hash, c.current.gen + 1⟩
  match if written then g.store.save site a mtime else none with
  | none => g
  | some st =>
    let (s, st) := makeCookie site st now
    { g with store := st, issued := s :: g.issued, ended := g.issued, inForce := (a.user, a.gen) :: g.inForce }

def step (site : Site) (g : Gate) : Op → Gate
  | .login now =>
    let (s, st) := makeCookie site g.store now
    { g with store := st, issued := s :: g.issued }
  | .request c now => { g with store := (validCookie site g.store c now).2 }
  | .account c now => match validCookie site g.store c now with
    | (true, st) => { g with store := st, reading := g.reading + 1 }
    | (false, st) => { g with store := st }
  | .body b =>
    if g.reading = 0 then g
    else match changeOf site g.store b with
      | (some c, st) => { g with store := st, reading := g.reading - 1, checking := c :: g.checking }
      | (none, st) => { g with store := st, reading := g.reading - 1 }
  | .checked c ok written mtime now =>
    if c ∈ g.checking then
      let g := { g with checking := g.checking.erase c }
      if !ok then g
      else if c.password = [] ∧ c.current.hash ≠ [] then
        if site.isScrypt c.current.hash then g.finish site c c.current.hash written mtime now else g
      else { g with hashing := c :: g.hashing }
    else g
  | .hashed c hash written mtime now =>
    if c ∈ g.hashing then
      let g := { g with hashing := g.hashing.erase c }
      g.finish site c hash written mtime now
    else g

/-! ### The login in force -/

/-- The login in force. -/
def login (site : Site) (g : Gate) : Creds := (creds site g.store).1

/-- The account change is under way: its body was read, and it is not answered. -/
def UnderWay (g : Gate) (c : Change) : Prop := c ∈ g.checking ∨ c ∈ g.hashing

/-- The record that the end of an account change saves. -/
def recordOf (site : Site) (c : Change) (hash : JsString) (written : Bool) : Option AdminRec :=
  if written ∧ isUserName c.user = true ∧ site.isScrypt hash = true then some ⟨c.user, hash, c.current.gen + 1⟩
  else none

/-- The record that a step saves. -/
def savedBy (site : Site) (g : Gate) : Op → Option AdminRec
  | .checked c ok written _ _ =>
    if c ∈ g.checking ∧ ok = true ∧ c.password = [] ∧ c.current.hash ≠ [] ∧ site.isScrypt c.current.hash = true then
      recordOf site c c.current.hash written
    else none
  | .hashed c hash written _ _ => if c ∈ g.hashing then recordOf site c hash written else none
  | _ => none

variable {site : Site} {g g' : Gate}

private theorem creds_snd (st : AdminStore) : (creds site st).2 = st.load.2 := by
  unfold creds
  rcases st.load with ⟨_ | a, st'⟩ <;> rfl

private theorem creds_congr {st st' : AdminStore} (h : st'.load.1 = st.load.1) :
    (creds site st').1 = (creds site st).1 := by
  unfold creds
  rcases hst : st.load with ⟨_ | a, st₁⟩ <;> rcases hst' : st'.load with ⟨_ | a', st₁'⟩ <;> simp_all

/-- Looking the login up does not change it. -/
private theorem creds_creds (st : AdminStore) : (creds site (creds site st).2).1 = (creds site st).1 := by
  rw [creds_snd]
  exact creds_congr st.load_load

private theorem creds_validCookie (st : AdminStore) (c : JsString) (now : ℤ) :
    (creds site (validCookie site st c now).2).1 = (creds site st).1 := by
  unfold validCookie
  split
  · split
    · rfl
    · split
      · rfl
      · exact creds_creds st
  · rfl

/-- A session that names the login. -/
def Names (s : Session) (user : JsString) (gen : ℕ) : Prop := s.u = user ∧ s.g = gen

private theorem names_makeCookie (st : AdminStore) (now : ℤ) :
    Names (makeCookie site st now).1 (creds site st).1.user (creds site st).1.gen := ⟨rfl, rfl⟩

/-- What a step can do to the login, the sessions and the changes under way. -/
inductive Moves (site : Site) (g g' : Gate) : Option AdminRec → Prop
  | kept (hlogin : g'.login site = g.login site) (hended : g'.ended = g.ended) (hforce : g'.inForce = g.inForce)
      (hissued : g'.issued = g.issued ∨
        ∃ s, Names s (g.login site).user (g.login site).gen ∧ g'.issued = s :: g.issued)
      (hway : ∀ c, g'.UnderWay c → g.UnderWay c ∨ c.current = g.login site) : Moves site g g' none
  | saved (a : AdminRec) (c : Change) (s : Session) (hc : g.UnderWay c) (hgen : a.gen = c.current.gen + 1)
      (hlogin : g'.login site = ⟨a.user, a.hash, [], a.gen⟩) (hended : g'.ended = g.issued)
      (hforce : g'.inForce = (a.user, a.gen) :: g.inForce) (hs : Names s a.user a.gen)
      (hissued : g'.issued = s :: g.issued) (hway : ∀ c, g'.UnderWay c → g.UnderWay c) : Moves site g g' (some a)

private theorem Moves.of_store {st : AdminStore} (hst : (creds site st).1 = (creds site g.store).1) {reading : ℕ} :
    Moves site g { g with store := st, reading := reading } none :=
  .kept hst rfl rfl (Or.inl rfl) fun _ h => Or.inl h

/-- The end of an account change; `g₀` is the state before it left the changes under way. -/
private theorem moves_finish {g₀ : Gate} {c : Change} {hash : JsString} {written : Bool} {mtime now : ℤ}
    (hc : g₀.UnderWay c) (hstore : g.store = g₀.store) (hissued : g.issued = g₀.issued) (hended : g.ended = g₀.ended)
    (hforce : g.inForce = g₀.inForce) (hway : ∀ c, g.UnderWay c → g₀.UnderWay c) :
    Moves site g₀ (g.finish site c hash written mtime now) (recordOf site c hash written) := by
  have hkept : Moves site g₀ g none :=
    .kept (by rw [Gate.login, Gate.login, hstore]) hended hforce (Or.inl hissued) fun c h => Or.inl (hway c h)
  unfold finish recordOf
  cases written with
  | false => simpa using hkept
  | true =>
    unfold AdminStore.save
    by_cases hvalid : isUserName c.user = true ∧ site.isScrypt hash = true
    · simp only [hvalid.1, hvalid.2, Bool.and_self, if_true, and_self]
      have hload : (creds site { g.store with
          file := some (mtime, some ⟨c.user, hash, c.current.gen + 1⟩), mtime := none }).1 =
          ⟨c.user, hash, [], c.current.gen + 1⟩ := rfl
      refine .saved _ c _ hc rfl ?_ hissued (by rw [hforce]) (names_makeCookie _ now) (by rw [hissued]) hway
      exact (creds_creds _).trans hload
    · have hsave : (isUserName c.user && site.isScrypt hash) = false := by
        rw [← Bool.not_eq_true, Bool.and_eq_true]
        exact hvalid
      simp only [hsave, Bool.false_eq_true, if_false, if_true, true_and, hvalid]
      exact hkept

private theorem underWay_erase_checking {c d : Change} (h : UnderWay { g with checking := g.checking.erase c } d) :
    g.UnderWay d :=
  h.imp_left List.mem_of_mem_erase

private theorem step_moves (site : Site) (g : Gate) (op : Op) : Moves site g (step site g op) (savedBy site g op) := by
  cases op with
  | login now =>
    refine .kept ?_ rfl rfl (Or.inr ⟨_, names_makeCookie g.store now, rfl⟩) fun _ h => Or.inl h
    exact creds_creds g.store
  | request c now => exact .of_store (creds_validCookie g.store c now)
  | account c now =>
    show Moves site g (step site g (.account c now)) none
    have hst : (creds site (validCookie site g.store c now).2).1 = (creds site g.store).1 :=
      creds_validCookie g.store c now
    rw [step]
    rcases hv : validCookie site g.store c now with ⟨_ | _, st⟩
    · rw [hv] at hst
      exact .of_store hst
    · rw [hv] at hst
      exact .of_store hst
  | body b =>
    show Moves site g (step site g (.body b)) none
    rw [step]
    split
    · exact .of_store rfl
    · unfold changeOf
      cases b with
      | none => exact .of_store rfl
      | some b =>
        dsimp only
        split
        · rename_i c st h
          split at h
          · cases h
          · cases h
            refine .kept (creds_creds g.store) rfl rfl (Or.inl rfl) fun d hd => ?_
            rcases hd with hd | hd
            · rcases List.mem_cons.1 hd with rfl | hd
              · exact Or.inr rfl
              · exact Or.inl (Or.inl hd)
            · exact Or.inl (Or.inr hd)
        · rename_i st h
          split at h
          · cases h
            exact .of_store (creds_creds g.store)
          · cases h
  | checked c ok written mtime now =>
    rw [step, savedBy]
    by_cases hc : c ∈ g.checking
    · have hgone : Moves site g { g with checking := g.checking.erase c } none :=
        .kept rfl rfl rfl (Or.inl rfl) fun d h => Or.inl (underWay_erase_checking h)
      rw [if_pos hc]
      cases ok with
      | false => simpa using hgone
      | true =>
        simp only [Bool.not_true, Bool.false_eq_true, if_false, hc, true_and]
        by_cases hold : c.password = [] ∧ c.current.hash ≠ []
        · rw [if_pos hold]
          by_cases hscrypt : site.isScrypt c.current.hash = true
          · rw [if_pos hscrypt, if_pos ⟨hold.1, hold.2, hscrypt⟩]
            exact moves_finish (Or.inl hc) rfl rfl rfl rfl fun d h => underWay_erase_checking h
          · rw [if_neg hscrypt, if_neg fun h => hscrypt h.2.2]
            exact hgone
        · rw [if_neg hold, if_neg fun h => hold ⟨h.1, h.2.1⟩]
          refine .kept rfl rfl rfl (Or.inl rfl) fun d hd => Or.inl ?_
          rcases hd with hd | hd
          · exact Or.inl (List.mem_of_mem_erase hd)
          · rcases List.mem_cons.1 hd with rfl | hd
            · exact Or.inl hc
            · exact Or.inr hd
    · rw [if_neg hc, if_neg fun h => hc h.1]
      exact .of_store rfl
  | hashed c hash written mtime now =>
    rw [step, savedBy]
    by_cases hc : c ∈ g.hashing
    · rw [if_pos hc, if_pos hc]
      exact moves_finish (Or.inr hc) rfl rfl rfl rfl fun d h => h.imp_right List.mem_of_mem_erase
    · rw [if_neg hc, if_neg hc]
      exact .of_store rfl

/-! ### Which cookies are accepted -/

/-- A cookie of the hub is accepted while it has not run out and names the login in force. -/
private theorem validCookie_cookieOf (hsite : site.Readable) (st : AdminStore) (s : Session) (now : ℤ) :
    (validCookie site st (cookieOf site s) now).1 = true ↔
      now < s.exp ∧ Names s (creds site st).1.user (creds site st).1.gen := by
  have hsplit : split 0x2e (cookieOf site s) = [site.payload s, site.sign (site.payload s)] := by
    rw [cookieOf, split_append_cons (hsite.payload_point s), split_of_notMem (hsite.sign_point _)]
  unfold validCookie
  rw [hsplit]
  dsimp only
  rw [if_neg (by simp [hsite.payload_ne, hsite.sign_ne]), hsite.parse_payload]
  simp [Names, and_assoc]

/-- No session handed out before the last account change was saved is accepted, at any time. -/
def Refused (site : Site) (g : Gate) : Prop :=
  ∀ s ∈ g.ended, ∀ now, (validCookie site g.store (cookieOf site s) now).1 = false

/-- The name and the generation that a step saves were never in force before. -/
def Unused (site : Site) (g : Gate) (op : Op) : Prop := ∀ a ∈ savedBy site g op, (a.user, a.gen) ∉ g.inForce

instance (site : Site) (g : Gate) (op : Op) : Decidable (Unused site g op) :=
  inferInstanceAs (Decidable (∀ a ∈ savedBy site g op, (a.user, a.gen) ∉ g.inForce))

/-- No account change is under way and none was saved; the sessions handed out are of the login's generation or an
earlier one. -/
structure Start (site : Site) (g : Gate) : Prop where
  checking : g.checking = []
  hashing : g.hashing = []
  ended : g.ended = []
  inForce : g.inForce = [((g.login site).user, (g.login site).gen)]
  issued : ∀ s ∈ g.issued, s.g ≤ (g.login site).gen

theorem refused_iff (hsite : site.Readable) :
    Refused site g ↔ ∀ s ∈ g.ended, ¬ Names s (g.login site).user (g.login site).gen := by
  refine forall₂_congr fun s _ => ?_
  constructor
  · intro h hn
    have hacc := (validCookie_cookieOf hsite g.store s (s.exp - 1)).2 ⟨by omega, hn⟩
    rw [h] at hacc
    cases hacc
  · intro h now
    rw [← Bool.not_eq_true, validCookie_cookieOf hsite]
    exact fun hacc => h hacc.2

/-- What holds of the logins that were in force since a start at generation `gen₀`. -/
structure Known (site : Site) (gen₀ : ℕ) (g : Gate) : Prop where
  login : ((g.login site).user, (g.login site).gen) ∈ g.inForce
  low : ∀ p ∈ g.inForce, gen₀ ≤ p.2
  way : ∀ c, g.UnderWay c → gen₀ ≤ c.current.gen
  issued : ∀ s ∈ g.issued, (s.u, s.g) ∈ g.inForce ∨ s.g ≤ gen₀
  handed : ∀ p ∈ g.inForce, p.2 = gen₀ ∨ ∃ s ∈ g.issued, Names s p.1 p.2

theorem Start.known (h : Start site g) : Known site (g.login site).gen g where
  login := by simp [h.inForce]
  low := by simp [h.inForce]
  way c hc := by simp [UnderWay, h.checking, h.hashing] at hc
  issued s hs := Or.inr (h.issued s hs)
  handed := by simp [h.inForce]

theorem Start.refused (h : Start site g) : Refused site g := by
  intro s hs
  rw [h.ended] at hs
  cases hs

private theorem Known.step {gen₀ : ℕ} (h : Known site gen₀ g) (op : Op) : Known site gen₀ (step site g op) := by
  have hmoves := step_moves site g op
  generalize Gate.step site g op = g' at hmoves ⊢
  generalize savedBy site g op = oa at hmoves
  cases hmoves with
  | kept hlogin hended hforce hissued hway =>
    refine ⟨by rw [hlogin, hforce]; exact h.login, by rw [hforce]; exact h.low, fun c hc => ?_, fun s hs => ?_,
      fun p hp => ?_⟩
    · rcases hway c hc with hc | hc
      · exact h.way c hc
      · rw [hc]
        exact h.low _ h.login
    · rw [hforce]
      rcases hissued with hi | ⟨s', hn, hi⟩
      · exact h.issued s (hi ▸ hs)
      · rw [hi] at hs
        rcases List.mem_cons.1 hs with rfl | hs
        · rw [hn.1, hn.2]
          exact Or.inl h.login
        · exact h.issued s hs
    · rw [hforce] at hp
      refine (h.handed p hp).imp id fun ⟨s, hs, hn⟩ => ⟨s, ?_, hn⟩
      rcases hissued with hi | ⟨s', -, hi⟩ <;> simp [hi, hs]
  | saved a c s hc hgen hlogin hended hforce hs hissued hway =>
    refine ⟨by simp [hlogin, hforce], fun p hp => ?_, fun d hd => h.way d (hway d hd), fun s' hs' => ?_, fun p hp => ?_⟩
    · rw [hforce] at hp
      rcases List.mem_cons.1 hp with rfl | hp
      · have := h.way c hc
        show gen₀ ≤ a.gen
        omega
      · exact h.low p hp
    · rw [hissued] at hs'
      rw [hforce]
      rcases List.mem_cons.1 hs' with rfl | hs'
      · rw [hs.1, hs.2]
        exact Or.inl List.mem_cons_self
      · exact (h.issued s' hs').imp (List.mem_cons_of_mem _) id
    · rw [hforce] at hp
      rw [hissued]
      rcases List.mem_cons.1 hp with rfl | hp
      · exact Or.inr ⟨s, List.mem_cons_self, hs⟩
      · exact (h.handed p hp).imp id fun ⟨s', hs', hn⟩ => ⟨s', List.mem_cons_of_mem _ hs', hn⟩

/-- After a step the earlier sessions are refused when what it saved was not in force before, and only then. -/
private theorem refused_step_iff (hsite : site.Readable) {gen₀ : ℕ} (h : Known site gen₀ g) (hr : Refused site g)
    (op : Op) : Refused site (step site g op) ↔ Unused site g op := by
  have hmoves := step_moves site g op
  rw [Unused]
  generalize Gate.step site g op = g' at hmoves ⊢
  generalize savedBy site g op = oa at hmoves ⊢
  rw [refused_iff hsite] at hr ⊢
  cases hmoves with
  | kept hlogin hended hforce hissued hway =>
    rw [hlogin, hended]
    exact iff_of_true hr (by simp)
  | saved a c s hc hgen hlogin hended hforce hs hissued hway =>
    have hnew : gen₀ < a.gen := by
      have := h.way c hc
      omega
    simp only [hlogin, hended, Option.mem_def, Option.some.injEq, forall_eq']
    constructor
    · intro hnone hmem
      rcases h.handed _ hmem with hold | ⟨s', hs', hn⟩
      · exact absurd hold (by dsimp only; omega)
      · exact hnone s' hs' hn
    · intro hmem s' hs' hn
      rcases h.issued s' hs' with hold | hold
      · rw [hn.1, hn.2] at hold
        exact hmem hold
      · rw [hn.2] at hold
        omega

/-- **An account change ends every session handed out before, exactly when the name and the generation it saves were
never in force**: over every run of logins, requests with any cookies and account changes, from a hub where none is
under way. -/
theorem refused_iff_unused (hsite : site.Readable) (hstart : Start site g) (ops : List Op) :
    Runs.Meets (step site) (fun g op => Refused site (step site g op)) g ops ↔
      Runs.Meets (step site) (Unused site) g ops := by
  refine Runs.meets_congr (I := fun g' => Known site (g.login site).gen g' ∧ Refused site g') ?_ ?_
    ⟨hstart.known, hstart.refused⟩
  · exact fun g' op h hr => ⟨h.1.step op, hr⟩
  · exact fun g' op h => refused_step_iff hsite h.1 h.2 op

/-! ### Two changes, one after the other and overlapping -/

/-- The texts and signatures of four sessions of `admin`, as the hub writes them with a key. -/
private def written : List (Session × JsString × JsString) := [
  (⟨js "admin", 0, 1702592000000⟩, js "eyJ1IjoiYWRtaW4iLCJnIjowLCJleHAiOjE3MDI1OTIwMDAwMDB9",
    js "qP35ftQhyzdj7zsyUV-XGx8wkkIPyahgpUIfQAxNNTM"),
  (⟨js "admin", 1, 1702592002000⟩, js "eyJ1IjoiYWRtaW4iLCJnIjoxLCJleHAiOjE3MDI1OTIwMDIwMDB9",
    js "wnOOqsUhtNRLfJYU_uU_o7N3hoSJpNzg4R3_u5rJp-M"),
  (⟨js "admin", 1, 1702592003000⟩, js "eyJ1IjoiYWRtaW4iLCJnIjoxLCJleHAiOjE3MDI1OTIwMDMwMDB9",
    js "elkIF1yZsBqQg7Isree631-kl-C-eUHI0CrkS4UswEg"),
  (⟨js "admin", 2, 1702592004000⟩, js "eyJ1IjoiYWRtaW4iLCJnIjoyLCJleHAiOjE3MDI1OTIwMDQwMDB9",
    js "_L0T1_U_2O3115nA0BBiKlvSCTqawWoS_pVGQVTNG-8")]

/-- A number for each session, for the texts of all others. -/
private def numberOf (s : Session) : ℕ := Encodable.encode (s.u.map UInt16.toNat, s.g, s.exp)

private def ofNumber (n : ℕ) : Option Session :=
  (Encodable.decode n : Option (List ℕ × ℕ × ℤ)).map fun p => ⟨p.1.map UInt16.ofNat, p.2.1, p.2.2⟩

private theorem ofNumber_numberOf (s : Session) : ofNumber (numberOf s) = some s := by
  have hu : (s.u.map UInt16.toNat).map UInt16.ofNat = s.u := by
    rw [List.map_map]
    conv_rhs => rw [← List.map_id s.u]
    exact List.map_congr_left fun u _ => UInt16.ofNat_toNat
  rw [ofNumber, numberOf, Encodable.encodek, Option.map_some, hu]

/-- A hub with its login in the environment. -/
private def demo : Site where
  user := js "admin"
  passHash := js "scrypt:32768:8:1:c2FsdA==:aGFzaA=="
  pass := []
  sessionMs := 2592000000
  isScrypt h := h.take 7 == js "scrypt:"
  payload s := ((written.find? fun e => e.1 = s).map fun e => e.2.1).getD (List.replicate (numberOf s + 1) 0x78)
  parse p := ((written.find? fun e => e.2.1 = p).map Prod.fst).or (ofNumber (p.length - 1))
  sign p := ((written.find? fun e => e.2.1 = p).map fun e => e.2.2).getD [0x78]

private theorem readable_demo : demo.Readable := by
  have hplain : ∀ e ∈ written, e.2.1 ≠ [] ∧ 0x2e ∉ e.2.1 ∧ 0x65 ∈ e.2.1 ∧ e.2.2 ≠ [] ∧ 0x2e ∉ e.2.2 ∧
      (written.find? fun e' => e'.2.1 = e.2.1).map Prod.fst = some e.1 := by decide +kernel
  have hcases (s : Session) : (∃ e ∈ written, e.1 = s ∧ demo.payload s = e.2.1) ∨
      demo.payload s = List.replicate (numberOf s + 1) 0x78 := by
    rw [show demo.payload s = ((written.find? fun e => e.1 = s).map fun e => e.2.1).getD
      (List.replicate (numberOf s + 1) 0x78) from rfl]
    cases hf : written.find? fun e => e.1 = s with
    | none => exact Or.inr rfl
    | some e => exact Or.inl ⟨e, List.mem_of_find?_eq_some hf, by simpa using List.find?_some hf, rfl⟩
  have hsign (p : JsString) : (∃ e ∈ written, demo.sign p = e.2.2) ∨ demo.sign p = [0x78] := by
    rw [show demo.sign p = ((written.find? fun e => e.2.1 = p).map fun e => e.2.2).getD [0x78] from rfl]
    cases hf : written.find? fun e => e.2.1 = p with
    | none => exact Or.inr rfl
    | some e => exact Or.inl ⟨e, List.mem_of_find?_eq_some hf, rfl⟩
  refine ⟨fun s => ?_, fun s => ?_, fun s => ?_, fun p => ?_, fun p => ?_⟩
  · rcases hcases s with ⟨e, he, rfl, h⟩ | h
    · rw [h, show demo.parse e.2.1 = ((written.find? fun e' => e'.2.1 = e.2.1).map Prod.fst).or
        (ofNumber (e.2.1.length - 1)) from rfl, (hplain e he).2.2.2.2.2]
      rfl
    · have hnone : (written.find? fun e => e.2.1 = List.replicate (numberOf s + 1) 0x78) = none := by
        rw [List.find?_eq_none]
        intro e he heq
        have hmem := (hplain e he).2.2.1
        rw [decide_eq_true_eq] at heq
        rw [heq] at hmem
        exact absurd (List.eq_of_mem_replicate hmem) (by decide)
      rw [h, show demo.parse (List.replicate (numberOf s + 1) 0x78) =
        ((written.find? fun e => e.2.1 = List.replicate (numberOf s + 1) 0x78).map Prod.fst).or
          (ofNumber ((List.replicate (numberOf s + 1) (0x78 : UInt16)).length - 1)) from rfl, hnone,
        List.length_replicate, Nat.add_sub_cancel, ofNumber_numberOf]
      rfl
  · rcases hcases s with ⟨e, he, -, h⟩ | h
    · rw [h]
      exact (hplain e he).1
    · rw [h]
      simp
  · rcases hcases s with ⟨e, he, -, h⟩ | h
    · rw [h]
      exact (hplain e he).2.1
    · rw [h]
      exact fun hm => absurd (List.eq_of_mem_replicate hm) (by decide)
  · rcases hsign p with ⟨e, he, h⟩ | h
    · rw [h]
      exact (hplain e he).2.2.2.1
    · rw [h]
      simp
  · rcases hsign p with ⟨e, he, h⟩ | h
    · rw [h]
      exact (hplain e he).2.2.2.2.1
    · rw [h]
      decide

private def fresh : Gate where
  store := ⟨none, none, none, false⟩
  reading := 0
  checking := []
  hashing := []
  issued := []
  ended := []
  inForce := [(js "admin", 0)]

private theorem start_fresh : Start demo fresh := ⟨rfl, rfl, rfl, by decide +kernel, nofun⟩

/-- An account change that sets a new password, at generation `gen`. -/
private def change (gen : ℕ) (hash : JsString) : Change := ⟨⟨js "admin", hash, [], gen⟩, js "admin", js "new password"⟩

private def newHash : JsString := js "scrypt:32768:8:1:c2FsdDI=:aGFzaDI="

private def cookie (i : ℕ) : JsString := ((written.map fun e => e.2.1 ++ 0x2e :: e.2.2)[i]?).getD []

private def account (i : ℕ) (now : ℤ) : List Op := [.account (cookie i) now, .body (some ⟨none, some (js "new password")⟩)]

/-- Two changes one after the other, the second with the cookie the first handed out. -/
theorem changes_in_turn_refuse :
    Runs.Meets (step demo) (fun g op => Refused demo (step demo g op)) fresh
      ([.login 1700000000000] ++ account 0 1700000001000 ++
        [.checked (change 0 demo.passHash) true true 0 0,
          .hashed (change 0 demo.passHash) newHash true 1700000002000 1700000002000] ++
        account 1 1700000003000 ++
        [.checked (change 1 newHash) true true 0 0,
          .hashed (change 1 newHash) newHash true 1700000004000 1700000004000]) :=
  (refused_iff_unused readable_demo start_fresh _).2 (by decide +kernel)

/-- Two changes that overlap both read generation 0 and save generation 1: the cookie that the first handed out is
still accepted after the second. -/
theorem overlapping_changes_accept :
    ∃ ops, let g := Runs.run (step demo) fresh ops
      Start demo fresh ∧ ⟨js "admin", 1, 1702592002000⟩ ∈ g.ended ∧
        (validCookie demo g.store (cookie 1) 1700000004000).1 = true ∧ ¬ Refused demo g := by
  refine ⟨[.login 1700000000000] ++ account 0 1700000001000 ++ account 0 1700000001000 ++
    [.checked (change 0 demo.passHash) true true 0 0, .checked (change 0 demo.passHash) true true 0 0,
      .hashed (change 0 demo.passHash) newHash true 1700000002000 1700000002000,
      .hashed (change 0 demo.passHash) newHash true 1700000003000 1700000003000], start_fresh, ?_⟩
  refine ⟨by decide +kernel, by decide +kernel, fun h => ?_⟩
  have hrefused := h ⟨js "admin", 1, 1702592002000⟩ (by decide +kernel) 1700000004000
  revert hrefused
  decide +kernel

end Gate

end Servitals
