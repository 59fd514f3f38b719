import Servitals.JsString
import Servitals.Lib.OMap
import Servitals.Lib.Runs

/-!
# The lockout

`hub/server.js`: a request that checks a password (the login form, an account change) is looked up in the bans when it
arrives (`banInfo`), checks the password when its body is complete, and has a failure counted after a delay
(`recordFail`).  Each of the three is a step of its own: any other step can come between them.

Requests that agree in all they carry are not told apart.  `tried` is a history variable: the password checks made.
-/

namespace Servitals

namespace Lockout

/-- `MAX_FAILS` and `BAN_HOURS`; a limit that is no number is `none`. -/
structure Config where
  maxFails : Option ℤ
  banHours : ℚ

/-- Is a number of failures as large as the limit?  No number is as large as one that is no number. -/
def Config.reached (cfg : Config) (n : ℕ) : Bool := cfg.maxFails.any (· ≤ (n : ℤ))

/-- An entry of the bans file. -/
structure Ban where
  bannedAt : ℤ
  until_ : ℚ
  fails : ℕ

/-- Has the ban run out?  One without an end has not. -/
def Ban.expired (b : Ban) (now : ℤ) : Bool := b.until_ ≠ 0 && decide (b.until_ < now)

/-- An entry of the fails file. -/
structure Fail where
  n : ℕ
  last : ℤ

/-- The two routes that check a password. -/
inductive Route
  | login | account
  deriving DecidableEq

/-- A request on its way: its route, the address of its client and whether that was on the whitelist. -/
structure Request where
  route : Route
  ip : Option JsString
  wl : Bool
  deriving DecidableEq

end Lockout

/-- The two files, the requests that wait for their bodies, and those whose password is being checked. -/
structure Lockout where
  bans : OMap JsString Lockout.Ban
  fails : OMap JsString Lockout.Fail
  reading : List Lockout.Request
  checking : List Lockout.Request
  tried : List Lockout.Request

namespace Lockout

/-- `banInfo`: the ban of an address; one that has run out is removed. -/
def banInfo (s : Lockout) (ip : Option JsString) (now : ℤ) : Option Ban × Lockout :=
  match ip with
  | none => (none, s)
  | some a => match s.bans.get? a with
    | none => (none, s)
    | some b => if b.expired now then (none, { s with bans := s.bans.erase a }) else (some b, s)

/-- `recordFail`: counts a failure, and bans the address at the limit.  The result is whether it did, and how many
tries are left. -/
def recordFail (cfg : Config) (s : Lockout) (ip : Option JsString) (now : ℤ) : (Bool × Option ℤ) × Lockout :=
  match ip with
  | none => ((false, cfg.maxFails), s)
  | some a =>
    let n := ((s.fails.get? a).map Fail.n).getD 0 + 1
    if cfg.reached n then
      let until_ : ℚ := if 0 < cfg.banHours then now + cfg.banHours * 3600000 else 0
      ((true, some 0), { s with bans := s.bans.set a ⟨now, until_, n⟩, fails := s.fails.erase a })
    else ((false, cfg.maxFails.map (· - (n : ℤ))), { s with fails := s.fails.set a ⟨n, now⟩ })

/-- `clearFails` -/
def clearFails (s : Lockout) (ip : Option JsString) : Lockout :=
  match ip with
  | none => s
  | some a => { s with fails := s.fails.erase a }

/-- What happens at the hub: a request arrives, its body is complete and its password is checked, the check succeeds,
or it fails and the failure is recorded; and `servitals-ctl unban`. -/
inductive Op
  | arrive (r : Request) (now : ℤ)
  | check (r : Request)
  | succeed (r : Request)
  | fail (r : Request) (now : ℤ)
  | unban (a : JsString)

def step (cfg : Config) (s : Lockout) : Op → Lockout
  | .arrive r now =>
    if r.wl then { s with reading := r :: s.reading }
    else match s.banInfo r.ip now with
      | (some _, s) => s
      | (none, s) => { s with reading := r :: s.reading }
  | .check r =>
    if r ∈ s.reading then
      { s with reading := s.reading.erase r, checking := r :: s.checking, tried := r :: s.tried }
    else s
  | .succeed r =>
    if r ∈ s.checking then
      let s := { s with checking := s.checking.erase r }
      match r.route with
      | .login => s.clearFails r.ip
      | .account => s
    else s
  | .fail r now =>
    if r ∈ s.checking then
      let s := { s with checking := s.checking.erase r }
      if r.wl then s else (s.recordFail cfg r.ip now).2
    else s
  | .unban a => { s with bans := s.bans.erase a }

/-! ### The limit of an address -/

/-- The failures stored for the address. -/
def failures (s : Lockout) (a : JsString) : ℕ := ((s.fails.get? a).map Fail.n).getD 0

/-- The checks of the address that are under way: their failures are not recorded yet. -/
def inFlight (s : Lockout) (a : JsString) : ℕ := s.checking.countP fun r => r.ip = some a

/-- The password checks made for the address. -/
def tries (s : Lockout) (a : JsString) : ℕ := s.tried.countP fun r => r.ip = some a

/-- A number of checks within the limit: none at all, or at most `MAX_FAILS`. -/
def Config.Within (cfg : Config) (n : ℕ) : Prop := n = 0 ∨ ∃ m ∈ cfg.maxFails, (n : ℤ) ≤ m

instance (cfg : Config) (n : ℕ) : Decidable (cfg.Within n) :=
  inferInstanceAs (Decidable (n = 0 ∨ ∃ m ∈ cfg.maxFails, (n : ℤ) ≤ m))

/-- Nothing is stored of the address, and nothing of it is on its way. -/
structure Fresh (a : JsString) (s : Lockout) : Prop where
  bans : s.bans.get? a = none
  fails : s.fails.get? a = none
  reading : ∀ r ∈ s.reading, r.ip ≠ some a
  checking : ∀ r ∈ s.checking, r.ip ≠ some a
  tried : ∀ r ∈ s.tried, r.ip ≠ some a

/-- The address is not on the whitelist, none of its requests succeeds, and no ban of it runs out or is lifted. -/
def Undisturbed (a : JsString) (s : Lockout) : Op → Prop
  | .arrive r now => r.ip = some a → r.wl = false ∧ ∀ b ∈ s.bans.get? a, b.expired now = false
  | .check _ => True
  | .succeed r => r ∈ s.checking → r.ip ≠ some a
  | .fail _ _ => True
  | .unban b => b ≠ a

/-- When a password of the address is checked, the address is not banned, and the failures stored together with the
checks under way are fewer than `MAX_FAILS`. -/
def Guarded (cfg : Config) (a : JsString) (s : Lockout) : Op → Prop
  | .check r => r ∈ s.reading → r.ip = some a →
    s.bans.get? a = none ∧ ∃ m ∈ cfg.maxFails, (s.failures a + s.inFlight a : ℤ) < m
  | _ => True

instance (a : JsString) (s : Lockout) : ∀ op, Decidable (Undisturbed a s op)
  | .arrive r now =>
    inferInstanceAs (Decidable (r.ip = some a → r.wl = false ∧ ∀ b ∈ s.bans.get? a, b.expired now = false))
  | .check _ => .isTrue trivial
  | .succeed r => inferInstanceAs (Decidable (r ∈ s.checking → r.ip ≠ some a))
  | .fail _ _ => .isTrue trivial
  | .unban b => inferInstanceAs (Decidable (b ≠ a))

instance (cfg : Config) (a : JsString) (s : Lockout) : ∀ op, Decidable (Guarded cfg a s op)
  | .check r => inferInstanceAs (Decidable (r ∈ s.reading → r.ip = some a →
      s.bans.get? a = none ∧ ∃ m ∈ cfg.maxFails, (s.failures a + s.inFlight a : ℤ) < m))
  | .arrive _ _ => .isTrue trivial
  | .succeed _ => .isTrue trivial
  | .fail _ _ => .isTrue trivial
  | .unban _ => .isTrue trivial

/-- The checks made are those counted and those under way, until the address is banned; then they have reached the
limit. -/
structure Counted (cfg : Config) (a : JsString) (s : Lockout) : Prop where
  reading : ∀ r ∈ s.reading, r.ip = some a → r.wl = false
  checking : ∀ r ∈ s.checking, r.ip = some a → r.wl = false
  free : s.bans.get? a = none → s.tries a = s.failures a + s.inFlight a
  banned : s.bans.get? a ≠ none → ∃ m ∈ cfg.maxFails, m ≤ (s.tries a : ℤ)

private theorem countP_erase {l : List Request} {r : Request} (h : r ∈ l) (p : Request → Bool) :
    l.countP p = (l.erase r).countP p + if p r then 1 else 0 := by
  rw [(List.perm_cons_erase h).countP_eq, List.countP_cons]

variable {cfg : Config} {a : JsString} {s : Lockout}

theorem Fresh.counted (h : Fresh a s) : Counted cfg a s where
  reading r hr ha := absurd ha (h.reading r hr)
  checking r hr ha := absurd ha (h.checking r hr)
  free _ := by
    have htries : s.tries a = 0 := List.countP_eq_zero.2 fun r hr => by simpa using h.tried r hr
    have hflight : s.inFlight a = 0 := List.countP_eq_zero.2 fun r hr => by simpa using h.checking r hr
    rw [htries, hflight, failures, h.fails]
    rfl
  banned hb := absurd h.bans hb

private theorem reached_iff {n : ℕ} : cfg.reached n = true ↔ ∃ m ∈ cfg.maxFails, m ≤ (n : ℤ) := by
  simp [Config.reached, Option.any_eq_true]

/-! ### What a step does -/

private theorem Counted.congr {s' : Lockout} (h : Counted cfg a s) (hbans : s'.bans.get? a = s.bans.get? a)
    (hfails : s'.fails.get? a = s.fails.get? a) (hreading : ∀ r ∈ s'.reading, r.ip = some a → r.wl = false)
    (hchecking : ∀ r ∈ s'.checking, r ∈ s.checking) (hflight : s'.inFlight a = s.inFlight a)
    (htries : s'.tries a = s.tries a) : Counted cfg a s' where
  reading := hreading
  checking r hr := h.checking r (hchecking r hr)
  free hb := by rw [htries, hflight, failures, hfails, h.free (hbans ▸ hb), failures]
  banned hb := by
    rw [htries]
    exact h.banned (hbans ▸ hb)

/-- The lookup of an address changes nothing but its ban, and that only when it has run out. -/
private theorem banInfo_spec (s : Lockout) (ip : Option JsString) (now : ℤ) (a : JsString)
    (h : ip = some a → ∀ b ∈ s.bans.get? a, b.expired now = false) :
    ∃ bans, (s.banInfo ip now).2 = { s with bans := bans } ∧ bans.get? a = s.bans.get? a := by
  unfold banInfo
  split
  · exact ⟨s.bans, rfl, rfl⟩
  · rename_i c
    split
    · exact ⟨s.bans, rfl, rfl⟩
    · rename_i b hb
      split
      · rename_i hexp
        refine ⟨s.bans.erase c, rfl, OMap.get?_erase_of_ne _ ?_⟩
        rintro rfl
        rw [h rfl b hb] at hexp
        cases hexp
      · exact ⟨s.bans, rfl, rfl⟩

private theorem Counted.arrive {r : Request} {now : ℤ} (h : Counted cfg a s)
    (hq : Undisturbed a s (.arrive r now)) : Counted cfg a (step cfg s (.arrive r now)) := by
  have hcons : ∀ q ∈ r :: s.reading, q.ip = some a → q.wl = false := by
    intro q hq' ha
    rcases List.mem_cons.1 hq' with rfl | hq'
    · exact (hq ha).1
    · exact h.reading q hq' ha
  rw [step]
  split
  · exact h.congr rfl rfl hcons (fun _ hr => hr) rfl rfl
  · obtain ⟨bans, hs, hbans⟩ := banInfo_spec s r.ip now a fun ha => (hq ha).2
    rcases hinfo : s.banInfo r.ip now with ⟨_ | b, s'⟩
    · rw [hinfo] at hs
      subst hs
      exact h.congr hbans rfl hcons (fun _ hr => hr) rfl rfl
    · rw [hinfo] at hs
      subst hs
      exact h.congr hbans rfl h.reading (fun _ hr => hr) rfl rfl

private theorem Counted.check {r : Request} (h : Counted cfg a s) : Counted cfg a (step cfg s (.check r)) := by
  rw [step]
  split
  · rename_i hr
    have hle : s.tries a ≤ (r :: s.tried).countP fun r => r.ip = some a := by
      rw [List.countP_cons]
      exact Nat.le_add_right _ _
    refine ⟨fun q hq => h.reading q (List.mem_of_mem_erase hq), ?_, fun hb => ?_, fun hb => ?_⟩
    · intro q hq
      rcases List.mem_cons.1 hq with rfl | hq
      · exact h.reading q hr
      · exact h.checking q hq
    · have hfree := h.free hb
      simp only [tries, inFlight, failures, List.countP_cons] at hfree ⊢
      omega
    · obtain ⟨m, hm, hmle⟩ := h.banned hb
      exact ⟨m, hm, hmle.trans (by exact_mod_cast hle)⟩
  · exact h

/-- A request that leaves the checks, and is none of the address. -/
private theorem inFlight_erase {r : Request} (hr : r ∈ s.checking) (hne : r.ip ≠ some a) :
    ((s.checking.erase r).countP fun r => r.ip = some a) = s.inFlight a := by
  rw [inFlight, countP_erase hr, if_neg (by simpa using hne), Nat.add_zero]

private theorem Counted.succeed {r : Request} (h : Counted cfg a s) (hq : Undisturbed a s (.succeed r)) :
    Counted cfg a (step cfg s (.succeed r)) := by
  rw [step]
  split
  · rename_i hr
    have hne : r.ip ≠ some a := hq hr
    have herase := inFlight_erase hr hne
    have hmem : ∀ q ∈ s.checking.erase r, q ∈ s.checking := fun _ hq => List.mem_of_mem_erase hq
    split
    · unfold clearFails
      split
      · exact h.congr rfl rfl h.reading hmem herase rfl
      · rename_i c hc
        have hac : a ≠ c := fun e => hne (e ▸ hc)
        exact h.congr rfl (OMap.get?_erase_of_ne _ hac) h.reading hmem herase rfl
    · exact h.congr rfl rfl h.reading hmem herase rfl
  · exact h

private theorem Counted.fail {r : Request} {now : ℤ} (h : Counted cfg a s) :
    Counted cfg a (step cfg s (.fail r now)) := by
  rw [step]
  split
  · rename_i hr
    have hmem : ∀ q ∈ s.checking.erase r, q ∈ s.checking := fun _ hq => List.mem_of_mem_erase hq
    by_cases ha : r.ip = some a
    · have hwl : r.wl = false := h.checking r hr ha
      have hflight : s.inFlight a = ((s.checking.erase r).countP fun r => r.ip = some a) + 1 := by
        rw [inFlight, countP_erase hr, if_pos (by simpa using ha)]
      simp only [hwl, Bool.false_eq_true, if_false, ha, recordFail]
      have htries : s.bans.get? a = none → s.tries a =
          s.failures a + ((s.checking.erase r).countP fun r => r.ip = some a) + 1 := fun hb => by
        rw [h.free hb, hflight, Nat.add_assoc]
      split
      · rename_i hlimit
        refine ⟨h.reading, fun q hq => h.checking q (hmem q hq), fun hb => ?_, fun _ => ?_⟩
        · simp at hb
        · by_cases hb : s.bans.get? a = none
          · obtain ⟨m, hm, hle⟩ := reached_iff.1 hlimit
            have hcount := htries hb
            simp only [failures] at hcount
            refine ⟨m, hm, hle.trans ?_⟩
            simp only [tries] at hcount ⊢
            omega
          · exact h.banned hb
      · refine ⟨h.reading, fun q hq => h.checking q (hmem q hq), fun hb => ?_, h.banned⟩
        have hcount := htries hb
        simp only [failures] at hcount
        simp only [tries, failures, inFlight, OMap.get?_set_self, Option.map_some, Option.getD_some] at hcount ⊢
        omega
    · have herase := inFlight_erase hr ha
      split
      · exact h.congr rfl rfl h.reading hmem herase rfl
      · unfold recordFail
        split
        · exact h.congr rfl rfl h.reading hmem herase rfl
        · rename_i c hc
          have hac : a ≠ c := fun e => ha (e ▸ hc)
          dsimp only
          split
          · exact h.congr (OMap.get?_set_of_ne _ hac _) (OMap.get?_erase_of_ne _ hac) h.reading hmem herase rfl
          · exact h.congr rfl (OMap.get?_set_of_ne _ hac _) h.reading hmem herase rfl
  · exact h

/-- Every step of a run that the claim is about keeps the count. -/
theorem Counted.step {op : Op} (h : Counted cfg a s) (hq : Undisturbed a s op) : Counted cfg a (step cfg s op) := by
  cases op with
  | arrive r now => exact h.arrive hq
  | check r => exact h.check
  | succeed r => exact h.succeed hq
  | fail r now => exact h.fail
  | unban b =>
    have hab : a ≠ b := fun e => hq e.symm
    exact h.congr (OMap.get?_erase_of_ne _ hab) rfl h.reading (fun _ hr => hr) rfl rfl

/-! ### How many checks a run makes -/

private theorem tried_banInfo (ip : Option JsString) (now : ℤ) : (s.banInfo ip now).2.tried = s.tried := by
  unfold banInfo
  split
  · rfl
  · split
    · rfl
    · split <;> rfl

private theorem tried_recordFail (ip : Option JsString) (now : ℤ) : (s.recordFail cfg ip now).2.tried = s.tried := by
  unfold recordFail
  split
  · rfl
  · dsimp only
    split <;> rfl

/-- The checks of the address that a step makes. -/
private def newTries (a : JsString) (s : Lockout) : Op → ℕ
  | .check r => if r ∈ s.reading ∧ r.ip = some a then 1 else 0
  | _ => 0

private theorem tries_step (op : Op) : (Lockout.step cfg s op).tries a = s.tries a + newTries a s op := by
  cases op with
  | arrive r now =>
    rw [Lockout.step]
    split
    · rfl
    · have htried := tried_banInfo (s := s) r.ip now
      generalize s.banInfo r.ip now = info at htried ⊢
      rcases info with ⟨_ | b, s'⟩ <;> exact congrArg (List.countP _) htried
  | check r =>
    rw [Lockout.step, newTries]
    split
    · rename_i hr
      simp [tries, List.countP_cons, hr]
    · rename_i hr
      simp [hr]
  | succeed r =>
    rw [Lockout.step]
    split
    · split
      · unfold clearFails
        split <;> rfl
      · rfl
    · rfl
  | fail r now =>
    rw [Lockout.step]
    split
    · split
      · rfl
      · exact congrArg (List.countP _) (tried_recordFail r.ip now)
    · rfl
  | unban b => rfl

/-- A step keeps the address within the limit when it is guarded, and only then. -/
private theorem within_step_iff {op : Op} (h : Counted cfg a s) (hw : cfg.Within (s.tries a)) :
    cfg.Within ((Lockout.step cfg s op).tries a) ↔ Guarded cfg a s op := by
  rw [tries_step]
  cases op with
  | check r =>
    simp only [newTries, Guarded]
    split
    · rename_i hr
      simp only [Config.Within, hr.1, hr.2, forall_const, Nat.add_eq_zero_iff, one_ne_zero, and_false, false_or]
      by_cases hb : s.bans.get? a = none
      · simp only [hb, true_and, h.free hb]
        refine exists_congr fun m => and_congr_right fun _ => ?_
        omega
      · obtain ⟨m, hm, hle⟩ := h.banned hb
        simp only [hb, false_and, iff_false]
        rintro ⟨k, hk, hlt⟩
        obtain rfl := Option.mem_unique hm hk
        omega
    · rename_i hr
      exact iff_of_true hw fun h1 h2 => absurd ⟨h1, h2⟩ hr
  | arrive r now => exact iff_of_true hw trivial
  | succeed r => exact iff_of_true hw trivial
  | fail r now => exact iff_of_true hw trivial
  | unban b => exact iff_of_true hw trivial

private theorem within_antitone {m n : ℕ} (h : m ≤ n) (hn : cfg.Within n) : cfg.Within m := by
  rcases hn with rfl | ⟨k, hk, hle⟩
  · exact Or.inl (by omega)
  · exact Or.inr ⟨k, hk, by omega⟩

private theorem tries_run (ops : List Op) : s.tries a ≤ (Runs.run (Lockout.step cfg) s ops).tries a := by
  induction ops generalizing s with
  | nil => exact le_rfl
  | cons op ops ih =>
    refine le_trans ?_ ih
    rw [tries_step]
    exact Nat.le_add_right _ _

/-- **An address gets at most `MAX_FAILS` password checks exactly when each of them is guarded**, in every run from a
hub that knows nothing of it, as long as none of its requests succeeds and no ban of it runs out or is lifted. -/
theorem within_iff_guarded {ops : List Op} (hfresh : Fresh a s)
    (hquiet : Runs.Meets (Lockout.step cfg) (Undisturbed a) s ops) :
    cfg.Within ((Runs.run (Lockout.step cfg) s ops).tries a) ↔
      Runs.Meets (Lockout.step cfg) (Guarded cfg a) s ops := by
  have hcounted : Counted cfg a s := hfresh.counted
  have hwithin : cfg.Within (s.tries a) := Or.inl (List.countP_eq_zero.2 fun r hr => by simpa using hfresh.tried r hr)
  clear hfresh
  induction ops generalizing s with
  | nil => exact iff_of_true hwithin trivial
  | cons op ops ih =>
    have hstep : cfg.Within ((Lockout.step cfg s op).tries a) ↔ Guarded cfg a s op := within_step_iff hcounted hwithin
    rw [Runs.run_cons, Runs.Meets]
    constructor
    · intro h
      have hw := within_antitone (tries_run ops) h
      exact ⟨hstep.1 hw, (ih hquiet.2 (hcounted.step hquiet.1) hw).1 h⟩
    · rintro ⟨hg, hrest⟩
      exact (ih hquiet.2 (hcounted.step hquiet.1) (hstep.2 hg)).2 hrest

/-- The files of a new hub. -/
private def newHub : Lockout := ⟨OMap.empty, OMap.empty, [], [], []⟩

private theorem fresh_newHub (a : JsString) : Fresh a newHub := ⟨rfl, rfl, nofun, nofun, nofun⟩

/-- A login from an address that is not on the whitelist. -/
private def stranger : Request := ⟨.login, some (js "203.0.113.9"), false⟩

/-- Three wrong passwords one after the other are within the default limit of three, and a fourth is not tried. -/
theorem tries_in_turn_within :
    Config.Within ⟨some 3, 0⟩ ((Runs.run (Lockout.step ⟨some 3, 0⟩) newHub
      [.arrive stranger 1000, .check stranger, .fail stranger 1900, .arrive stranger 2000, .check stranger,
        .fail stranger 2900, .arrive stranger 3000, .check stranger, .fail stranger 3900, .arrive stranger 4000,
        .check stranger]).tries (js "203.0.113.9")) :=
  (within_iff_guarded (fresh_newHub _) (by decide +kernel)).2 (by decide +kernel)

/-- Four requests arrive before the first failure is recorded: four passwords are checked, the limit is three. -/
theorem overlapping_logins_exceed :
    ∃ ops, Runs.Meets (Lockout.step ⟨some 3, 0⟩) (Undisturbed (js "203.0.113.9")) newHub ops ∧
      (Runs.run (Lockout.step ⟨some 3, 0⟩) newHub ops).tries (js "203.0.113.9") = 4 ∧
        ¬ Config.Within ⟨some 3, 0⟩ ((Runs.run (Lockout.step ⟨some 3, 0⟩) newHub ops).tries (js "203.0.113.9")) :=
  ⟨List.replicate 4 (.arrive stranger 1000) ++ List.replicate 4 (.check stranger), by decide +kernel,
    by decide +kernel, by decide +kernel⟩

end Lockout

end Servitals
