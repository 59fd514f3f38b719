import Servitals.Link

/-!
# What the calls of the link flow do

One lemma for each call: a sweep forgets old requests and counters only (`Swept`), and every other call is a sweep
followed by one of few changes (`Act`).  The results about runs are derived from these.
-/

namespace Servitals

namespace Links

variable {ρ : Type*}

/-! ### Sweeping -/

/-- The state after a sweep at the time `t`, as far as it may have come. -/
structure Swept (t : ℤ) (s s' : Links ρ) : Prop where
  requests : s'.requests = s.requests
  log : s'.log = s.log
  device : ∀ h p, s'.byDevice.get? h = some p → s.byDevice.get? h = some p
  user : ∀ h p, s'.byUser.get? h = some p → s.byUser.get? h = some p
  deviceKept : ∀ h p r, s.byDevice.get? h = some p → s.requests[p]? = some r → t ≤ r.expires + KEEP_MS →
    s'.byDevice.get? h = some p
  userKept : ∀ h p, s.byUser.get? h = some p →
    (∀ h' p' r, s.byDevice.get? h' = some p' → s.requests[p']? = some r → r.userHash = h →
      t ≤ r.expires ∧ r.status = .pending) → s'.byUser.get? h = some p
  sublist : s'.byUser.entries.Sublist s.byUser.entries
  starts : s'.starts = s.starts ∨ s'.starts = pruned s.starts t
  entries : s'.entries = s.entries ∨ s'.entries = pruned s.entries t

theorem Swept.refl (t : ℤ) (s : Links ρ) : Swept t s s where
  requests := rfl
  log := rfl
  device _ _ h := h
  user _ _ h := h
  deviceKept _ _ _ h _ _ := h
  userKept _ _ h _ := h
  sublist := .refl _
  starts := Or.inl rfl
  entries := Or.inl rfl

private theorem Swept.eraseDevice {t : ℤ} {s s' : Links ρ} (h : Swept t s s') {k : JsString} {p : ℕ}
    {r : LinkRequest ρ} (hk : s.byDevice.get? k = some p) (hr : s.requests[p]? = some r)
    (hold : r.expires + KEEP_MS < t) : Swept t s { s' with byDevice := s'.byDevice.erase k } where
  requests := h.requests
  log := h.log
  device k' p' hp' := by
    rw [OMap.get?_erase] at hp'
    split at hp'
    · cases hp'
    · exact h.device k' p' hp'
  user := h.user
  deviceKept k' p' r' hk' hr' ht := by
    by_cases he : k' = k
    · subst he
      obtain rfl := Option.some.inj (hk.symm.trans hk')
      obtain rfl := Option.some.inj (hr.symm.trans hr')
      omega
    · rw [OMap.get?_erase_of_ne _ he]
      exact h.deviceKept k' p' r' hk' hr' ht
  userKept := h.userKept
  sublist := h.sublist
  starts := h.starts
  entries := h.entries

private theorem Swept.eraseUser {t : ℤ} {s s' : Links ρ} (h : Swept t s s') {k : JsString} {p : ℕ}
    {r : LinkRequest ρ} (hk : s.byDevice.get? k = some p) (hr : s.requests[p]? = some r)
    (hover : r.expires < t ∨ r.status ≠ .pending) :
    Swept t s { s' with byUser := s'.byUser.erase r.userHash } where
  requests := h.requests
  log := h.log
  device := h.device
  user k' p' hp' := by
    rw [OMap.get?_erase] at hp'
    split at hp'
    · cases hp'
    · exact h.user k' p' hp'
  deviceKept := h.deviceKept
  userKept k' p' hk' hlive := by
    have hne : k' ≠ r.userHash := by
      intro he
      obtain ⟨h1, h2⟩ := hlive k p r hk hr he.symm
      rcases hover with ho | ho
      · omega
      · exact ho h2
    rw [OMap.get?_erase_of_ne _ hne]
    exact h.userKept k' p' hk' hlive
  sublist := List.filter_sublist.trans h.sublist
  starts := h.starts
  entries := h.entries

private theorem Swept.request {t : ℤ} {s s' : Links ρ} (h : Swept t s s') {e : JsString × ℕ}
    (he : e ∈ s.byDevice.entries) : Swept t s (sweepRequest t s' e) := by
  obtain ⟨k, p⟩ := e
  have hk : s.byDevice.get? k = some p := OMap.mem_entries_iff.1 he
  unfold sweepRequest
  split
  · exact h
  · rename_i r hr
    rw [h.requests] at hr
    have hfirst : Swept t s (if r.expires + KEEP_MS < t then { s' with byDevice := s'.byDevice.erase k } else s') := by
      split
      · rename_i hold
        exact h.eraseDevice hk hr hold
      · exact h
    dsimp only
    split
    · rename_i hover
      exact hfirst.eraseUser hk hr hover
    · exact hfirst

theorem sweep_swept (s : Links ρ) (t : ℤ) : Swept t s (s.sweep t) := by
  have hfold : ∀ (l : List (JsString × ℕ)) (s' : Links ρ), (∀ e ∈ l, e ∈ s.byDevice.entries) → Swept t s s' →
      s'.starts = s.starts → s'.entries = s.entries →
      Swept t s (l.foldl (sweepRequest t) s') ∧ (l.foldl (sweepRequest t) s').starts = s.starts ∧
        (l.foldl (sweepRequest t) s').entries = s.entries := by
    intro l
    induction l with
    | nil => exact fun s' _ h hs he => ⟨h, hs, he⟩
    | cons e l ih =>
      intro s' hl h hs he
      have hsame : (sweepRequest t s' e).starts = s'.starts ∧ (sweepRequest t s' e).entries = s'.entries := by
        unfold sweepRequest
        split
        · exact ⟨rfl, rfl⟩
        · dsimp only
          split <;> split <;> exact ⟨rfl, rfl⟩
      exact ih _ (fun x hx => hl x (List.mem_cons_of_mem _ hx)) (h.request (hl e List.mem_cons_self))
        (hsame.1.trans hs) (hsame.2.trans he)
  unfold sweep
  split
  · exact .refl t s
  · have hstart : Swept t s { s with lastSweep := some t } := by
      have h := Swept.refl t s
      exact ⟨h.requests, h.log, h.device, h.user, h.deviceKept, h.userKept, h.sublist, h.starts, h.entries⟩
    obtain ⟨h, hs, he⟩ := hfold s.byDevice.entries _ (fun _ hx => hx) hstart rfl rfl
    exact ⟨h.requests, h.log, h.device, h.user, h.deviceKept, h.userKept, h.sublist,
      Or.inr (congrArg (pruned · t) hs), Or.inr (congrArg (pruned · t) he)⟩

/-! ### What one call does -/

/-- A new request at the end of the heap. -/
def fresh (hash : JsString → JsString) (device : JsString) (code : UserCode) (details : Details) (t : ℤ) :
    LinkRequest ρ :=
  ⟨hash device, hash code.1, code, details, addressKey details.ip, t, t + TTL_MS, .pending, 0, none⟩

/-- The state with a new request. -/
def begun (hash : JsString → JsString) (s : Links ρ) (device : JsString) (code : UserCode) (details : Details) (t : ℤ) :
    Links ρ :=
  { s with
    starts := record s.starts (addressKey details.ip) START_WINDOW_MS t
    requests := s.requests ++ [fresh hash device code details t]
    byDevice := s.byDevice.set (hash device) s.requests.length
    byUser := s.byUser.set (hash code.1) s.requests.length
    log := s.log ++ [.started s.requests.length device code details (addressKey details.ip) t] }

/-- The state with a wrong code counted. -/
def counted (s : Links ρ) (w : Who) (t : ℤ) : Links ρ :=
  { s with
    entries := w.keys.foldl (fun m k => record m k ENTRY_WINDOW_MS t) s.entries
    log := s.log ++ [.unknown w.keys t] }

/-- The state with a request taken out of the map of user codes for its decision. -/
def taken (s : Links ρ) (p : ℕ) (r : LinkRequest ρ) (approve : Bool) (t : ℤ) : Links ρ :=
  { s with byUser := s.byUser.erase r.userHash, log := s.log ++ [.decided p approve t] }

def without (r : LinkRequest ρ) (status : LinkStatus) : LinkRequest ρ :=
  { r with status := status, details := { r.details with secret := [] } }

/-- What a call does to the state. -/
inductive Effect (hash : JsString → JsString) (s : Links ρ) (c : LinkStep ρ) : Links ρ → Prop
  | same : Effect hash s c s
  | swept : Effect hash s c (s.sweep c.time)
  | begun (ask : Ask) (device : JsString) (codes : List UserCode) (code : UserCode) (details : Details)
      (hop : c.op = .start ask device codes) (hcode : code ∈ codes)
      (hfree : (s.sweep c.time).byUser.get? (hash code.1) = none)
      (hbusy : (s.sweep c.time).byUser.entries.length < MAX_PENDING)
      (hwaiting : (s.sweep c.time).waiting (addressKey details.ip) c.time < PENDING_PER_ADDRESS)
      (hstarts : (recent (s.sweep c.time).starts (addressKey details.ip) START_WINDOW_MS c.time).length < START_LIMIT) :
      Effect hash s c ((s.sweep c.time).begun hash device code details c.time)
  | counted (w : Who) (hlimited : s.limited w c.time = false) : Effect hash s c ((s.sweep c.time).counted w c.time)
  | polled (p : ℕ) (r : LinkRequest ρ) (hr : (s.sweep c.time).requests[p]? = some r) :
      Effect hash s c ((s.sweep c.time).update p { r with lastPoll := c.time })
  | handed (device : JsString) (p : ℕ) (r : LinkRequest ρ) (res : ρ) (hop : c.op = .poll (some device))
      (hlen : device.length ≤ 64)
      (hheld : (s.sweep c.time).held hash device = some (p, r)) (hstatus : r.status = .approved)
      (hres : r.result = some res) :
      Effect hash s c { (s.sweep c.time).update p (without r .spent) with
        log := (s.sweep c.time).log ++ [.handed p device res] }
  | denied (code : JsString) (p : ℕ) (r : LinkRequest ρ) (hopen : (s.sweep c.time).open? hash code c.time = some p)
      (hr : (s.sweep c.time).requests[p]? = some r) :
      Effect hash s c (((s.sweep c.time).taken p r false c.time).update p (without r .denied))
  | approved (code : JsString) (p : ℕ) (r : LinkRequest ρ) (res : ρ)
      (hopen : (s.sweep c.time).open? hash code c.time = some p) (hr : (s.sweep c.time).requests[p]? = some r) :
      Effect hash s c ({ (s.sweep c.time).taken p r true c.time with
        log := ((s.sweep c.time).taken p r true c.time).log ++ [LinkEvent.called p r.details (some res)] }.update p
          { r with result := some res, status := .approved })
  | threw (code : JsString) (p : ℕ) (r : LinkRequest ρ) (hopen : (s.sweep c.time).open? hash code c.time = some p)
      (hr : (s.sweep c.time).requests[p]? = some r) :
      Effect hash s c { (s.sweep c.time).taken p r true c.time with
        log := ((s.sweep c.time).taken p r true c.time).log ++ [.called p r.details none] }

variable {hash : JsString → JsString} {s : Links ρ}

private theorem start_effect (ask : Ask) (device : JsString) (codes : List UserCode) (t : ℤ) :
    Effect hash s ⟨t, .start ask device codes⟩ (s.start hash ask device codes t).1 := by
  unfold start
  split
  · exact .same
  · rename_i details hdetails
    have hip : details.ip = ask.ip := by
      simp only [Ask.details, Option.bind_eq_bind, Option.bind_eq_some_iff, Option.pure_def, Option.some.injEq]
        at hdetails
      obtain ⟨-, -, -, -, -, -, -, -, rfl⟩ := hdetails
      rfl
    dsimp only
    split
    · exact .swept
    · rename_i hbusy
      split
      · exact .swept
      · rename_i hlimit
        simp only [not_or, not_le] at hbusy hlimit
        split
        · exact .swept
        · rename_i code hcode
          have hfree : (s.sweep t).byUser.get? (hash code.1) = none := by
            have h := List.find?_some hcode
            simpa [OMap.contains] using h
          rw [← hip] at hlimit ⊢
          exact .begun ask device codes code details rfl (List.mem_of_find?_eq_some hcode) hfree hbusy.1 hlimit.1
            hlimit.2

/-- What a device code leads to. -/
theorem of_held {device : JsString} {p : ℕ} {r : LinkRequest ρ} (h : s.held hash device = some (p, r)) :
    s.byDevice.get? (hash device) = some p ∧ s.requests[p]? = some r := by
  obtain ⟨q, hq, hr⟩ := Option.bind_eq_some_iff.1 h
  obtain ⟨r', hr', he⟩ := Option.map_eq_some_iff.1 hr
  cases he
  exact ⟨hq, hr'⟩

private theorem poll_effect (device : Option JsString) (t : ℤ) :
    Effect hash s ⟨t, .poll device⟩ (s.poll hash device t).1 := by
  unfold poll
  split
  · exact .same
  · rename_i d hd
    obtain ⟨rfl, hlen⟩ := Option.filter_eq_some_iff.1 hd
    dsimp only
    split
    · exact .swept
    · rename_i p r hheld
      have hr : (s.sweep t).requests[p]? = some r := (of_held hheld).2
      split
      · exact .swept
      · exact .swept
      · rename_i res hstatus hres
        exact .handed d p r res rfl (of_decide_eq_true hlen) hheld hstatus hres
      · split
        · exact .swept
        · exact .polled p r hr

/-- A code is refused, counted as wrong, or finds its request. -/
theorem find_effect (hash : JsString → JsString) (s : Links ρ) (code : JsString) (w : Who) (t : ℤ) :
    s.find hash code w t = (s, .error .tooMany) ∨
    (s.limited w t = false ∧ s.find hash code w t = ((s.sweep t).counted w t, .error .unknown)) ∨
    ∃ p, (s.sweep t).open? hash code t = some p ∧ s.find hash code w t = (s.sweep t, .ok p) := by
  unfold find
  split
  · exact Or.inl rfl
  · rename_i hlimited
    dsimp only
    split
    · exact Or.inr (Or.inl ⟨by simpa using hlimited, rfl⟩)
    · rename_i p hp
      exact Or.inr (Or.inr ⟨p, hp, rfl⟩)

private theorem lookup_effect (code : JsString) (w : Who) (t : ℤ) :
    Effect hash s ⟨t, .lookup code w⟩ (s.lookup hash code w t).1 := by
  unfold lookup
  rcases find_effect hash s code w t with hf | ⟨hlimited, hf⟩ | ⟨p, -, hf⟩
  · rw [hf]
    exact .same
  · rw [hf]
    exact .counted w hlimited
  · rw [hf]
    exact .swept

private theorem decide_effect (code : JsString) (approve : Bool) (w : Who) (onApprove : Details → Option ρ) (t : ℤ) :
    Effect hash s ⟨t, .decide code approve w onApprove⟩ (s.decide hash code approve w onApprove t).1 := by
  unfold decide
  rcases find_effect hash s code w t with hf | ⟨hlimited, hf⟩ | ⟨p, hopen, hf⟩
  · rw [hf]
    exact .same
  · rw [hf]
    exact .counted w hlimited
  · rw [hf]
    dsimp only
    split
    · exact .swept
    · rename_i r hr
      cases approve with
      | false => exact .denied code p r hopen hr
      | true =>
        simp only [Bool.not_true, Bool.false_eq_true, if_false]
        split
        · rename_i hnone
          rw [hnone]
          exact .threw code p r hopen hr
        · rename_i res hres
          rw [hres]
          exact .approved code p r res hopen hr

/-- Every call has one of the effects. -/
theorem step_effect (hash : JsString → JsString) (s : Links ρ) (c : LinkStep ρ) : Effect hash s c (s.step hash c) := by
  obtain ⟨t, op⟩ := c
  cases op with
  | start ask device codes => exact start_effect ask device codes t
  | poll device => exact poll_effect device t
  | lookup code w => exact lookup_effect code w t
  | decide code approve w onApprove => exact decide_effect code approve w onApprove t

end Links

end Servitals
