import Servitals.Notify

/-!
# The daily digest

Info events wait for the digest, which `tick` sends once a minute when the local clock reads its time or later and the
day is not the one it remembers (`digestDay`).  A digest is due at the first such moment of a day (`Due`).  No due time
is acted on twice, whatever the gaps between the ticks, over restarts too; but the first tick after a due time sends the
digest exactly when the clock still reads its time or later (`due_digest_sent_iff`).  A tick that comes past midnight
leaves it for a day (`digest_missed_at_midnight`).
-/

namespace Servitals

/-- Each day is one stretch of time, and has a beginning. -/
structure Locale.Calendar (loc : Locale) : Prop where
  stretch : ∀ t u v, t ≤ u → u ≤ v → loc.day t = loc.day v → loc.day u = loc.day t
  begins : ∀ t, ∃ u < t, loc.day u ≠ loc.day t

/-- The digest is due: the first moment of a day at which the clock reads its time or later. -/
def Due (loc : Locale) (digestAt : ℕ) (u : ℤ) : Prop :=
  digestAt ≤ loc.minutes u ∧ ∀ v < u, loc.day v = loc.day u → loc.minutes v < digestAt

/-- A moment at which the clock reads the digest's time or later comes after the due time of its day. -/
private theorem Locale.Calendar.exists_due {loc : Locale} (hloc : loc.Calendar) {digestAt : ℕ} {t : ℤ}
    (ht : digestAt ≤ loc.minutes t) : ∃ u ≤ t, loc.day u = loc.day t ∧ Due loc digestAt u := by
  obtain ⟨w, hwt, hw⟩ := hloc.begins t
  have hbelow : ∀ v, v ≤ t ∧ loc.day v = loc.day t ∧ digestAt ≤ loc.minutes v → w ≤ v := by
    rintro v ⟨hvt, hday, -⟩
    by_contra hlt
    exact hw ((hloc.stretch v w t (by omega) hwt.le hday).trans hday)
  obtain ⟨u, ⟨hut, hday, hread⟩, hfirst⟩ := Int.exists_least_of_bdd ⟨w, hbelow⟩ ⟨t, le_rfl, rfl, ht⟩
  refine ⟨u, hut, hday, hread, fun v hvu hv => ?_⟩
  by_contra hnot
  have := hfirst v ⟨by omega, hv.trans hday, not_lt.1 hnot⟩
  omega

/-! ### The notifier and its state file -/

/-- What `notify-state.json` holds. -/
structure NotifyState where
  held : List Event
  digest : List Event
  digestDay : Option JsString

/-- The notifier, and what it saved last. -/
structure SavedNotifier where
  notifier : Notifier
  file : NotifyState

inductive NotifierOp
  | event (e : Event)
  | tick
  | config (channels : List Channel) (quiet : Option Quiet)
  | restart

/-- A step at a time of the clock. -/
structure NotifierStep where
  time : ℤ
  op : NotifierOp

namespace SavedNotifier

/-- `st` of the notifier. -/
def state (n : Notifier) : NotifyState := ⟨n.held, n.digest, n.digestDay⟩

/-- Does `onEvent` save?  An event that is sent at once changes nothing it has to keep. -/
def saves (loc : Locale) (n : Notifier) (e : Event) (t : ℤ) : Bool :=
  2 ≤ e.severity.rank || (e.severity != .critical && n.inQuiet loc t)

/-- A first start. -/
def fresh (channels : List Channel) (quiet : Option Quiet) (digestAt : ℕ) : SavedNotifier where
  notifier := ⟨channels, quiet, digestAt, [], [], none, []⟩
  file := ⟨[], [], none⟩

def step (loc : Locale) (s : SavedNotifier) (x : NotifierStep) : SavedNotifier :=
  match x.op with
  | .event e =>
    let n := s.notifier.onEvent loc e x.time
    if saves loc s.notifier e x.time then ⟨n, state n⟩ else { s with notifier := n }
  | .tick =>
    let n := s.notifier.tick loc x.time
    ⟨n, state n⟩
  | .config channels quiet => { s with notifier := { s.notifier with channels := channels, quiet := quiet } }
  | .restart =>
    { s with notifier := { s.notifier with
        held := s.file.held, digest := s.file.digest, digestDay := s.file.digestDay } }

end SavedNotifier

/-- The times of the ticks. -/
def tickTimes (steps : List NotifierStep) : List ℤ :=
  steps.filterMap fun x => match x.op with
    | .tick => some x.time
    | _ => none

namespace Notifier

/-! ### What a call does to the digest -/

variable (loc : Locale) (n : Notifier) (t : ℤ)

/-- A due time is acted on: the tick remembers a new day. -/
def Acts : Prop := (n.tick loc t).digestDay ≠ n.digestDay

/-- The tick empties the digest, and sends it when it holds any event. -/
def Sends : Prop :=
  (n.tick loc t).digest = [] ∧ (n.digest ≠ [] → (n.tick loc t).queued = (n.releaseDue loc t).queued ++
    (n.channels.filter fun c => c.on && c.digest).map fun c => (c.id, digestMessage loc n.digest))

/-- What is held has nothing to do with the digest. -/
private theorem releaseDue_frame :
    (n.releaseDue loc t).channels = n.channels ∧ (n.releaseDue loc t).digestAt = n.digestAt ∧
    (n.releaseDue loc t).digest = n.digest ∧ (n.releaseDue loc t).digestDay = n.digestDay := by
  unfold releaseDue
  split
  · unfold releaseHeld
    dsimp only
    split
    · exact ⟨rfl, rfl, rfl, rfl⟩
    · exact ⟨rfl, rfl, rfl, rfl⟩
  · exact ⟨rfl, rfl, rfl, rfl⟩

/-- The day a tick remembers. -/
private theorem tick_spec :
    (n.tick loc t).digestAt = n.digestAt ∧
      ((n.digestAt ≤ loc.minutes t ∧ n.digestDay ≠ some (loc.day t)) ∧ (n.tick loc t).digestDay = some (loc.day t) ∧
          n.Sends loc t ∨
        ¬ (n.digestAt ≤ loc.minutes t ∧ n.digestDay ≠ some (loc.day t)) ∧ (n.tick loc t).digestDay = n.digestDay ∧
          (n.tick loc t).digest = n.digest) := by
  obtain ⟨hchannels, hat, hdigest, hday⟩ := n.releaseDue_frame loc t
  unfold Sends tick
  dsimp only
  rw [hat, hday]
  split
  · rename_i hdue
    refine ⟨?_, Or.inl ⟨hdue, ?_, ?_⟩⟩
    · split
      · rfl
      · rfl
    · split
      · rfl
      · rfl
    · rw [hdigest]
      refine ⟨rfl, fun hne => ?_⟩
      rw [if_neg hne, ← hchannels]
      rfl
  · rename_i hnot
    exact ⟨hat, Or.inr ⟨hnot, hday, hdigest⟩⟩

private theorem acts_iff : n.Acts loc t ↔ n.digestAt ≤ loc.minutes t ∧ n.digestDay ≠ some (loc.day t) := by
  obtain ⟨-, ⟨hdue, hday, -⟩ | ⟨hnot, hday, -⟩⟩ := n.tick_spec loc t
  · rw [Acts, hday]
    exact ⟨fun _ => hdue, fun h => h.2.symm⟩
  · rw [Acts, hday]
    exact ⟨fun h => absurd rfl h, fun h => absurd h hnot⟩

/-- An event leaves the remembered day as it is. -/
private theorem onEvent_frame (e : Event) :
    (n.onEvent loc e t).digestAt = n.digestAt ∧ (n.onEvent loc e t).digestDay = n.digestDay ∧
      (2 ≤ e.severity.rank ∨ (n.onEvent loc e t).digest = n.digest) := by
  obtain ⟨-, hat, hdigest, hday⟩ := n.releaseDue_frame loc t
  unfold onEvent
  dsimp only
  split
  · rename_i hinfo
    exact ⟨hat, hday, Or.inl hinfo⟩
  · split
    · exact ⟨hat, hday, Or.inr hdigest⟩
    · exact ⟨hat, hday, Or.inr hdigest⟩

end Notifier

namespace SavedNotifier

/-! ### Runs -/

variable {loc : Locale} {digestAt : ℕ} {new : Prop} {ts : List ℤ} {s : SavedNotifier}

/-- The file has the notifier's digest, and the day it remembers is that of a tick at which the clock read the digest's
time or later; a new one may remember none. -/
structure Remembers (loc : Locale) (digestAt : ℕ) (new : Prop) (ts : List ℤ) (s : SavedNotifier) : Prop where
  time : s.notifier.digestAt = digestAt
  saved : s.file.digest = s.notifier.digest
  savedDay : s.file.digestDay = s.notifier.digestDay
  day : new ∧ s.notifier.digestDay = none ∨
    ∃ c ∈ ts, s.notifier.digestDay = some (loc.day c) ∧ digestAt ≤ loc.minutes c

private theorem tickTimes_append (steps steps' : List NotifierStep) :
    tickTimes (steps ++ steps') = tickTimes steps ++ tickTimes steps' := List.filterMap_append

/-- What a step leaves of the remembered day is remembered still. -/
private theorem Remembers.same (h : s.Remembers loc digestAt new ts) {s' : SavedNotifier}
    (hat : s'.notifier.digestAt = s.notifier.digestAt) (hday : s'.notifier.digestDay = s.notifier.digestDay)
    (hfile : s'.file.digestDay = s'.notifier.digestDay) (hdigest : s'.file.digest = s'.notifier.digest) :
    s'.Remembers loc digestAt new ts where
  time := hat.trans h.time
  saved := hdigest
  savedDay := hfile
  day := by
    rw [hday]
    exact h.day

theorem Remembers.tick (h : s.Remembers loc digestAt new ts) (t : ℤ) :
    (s.step loc ⟨t, .tick⟩).Remembers loc digestAt new (ts ++ [t]) := by
  obtain ⟨hat, ⟨hdue, hday, -⟩ | ⟨-, hday, -⟩⟩ := s.notifier.tick_spec loc t
  · rw [h.time] at hdue
    exact ⟨hat.trans h.time, rfl, rfl, Or.inr ⟨t, List.mem_append_right ts List.mem_cons_self, hday, hdue.1⟩⟩
  · have hsame : (s.step loc ⟨t, .tick⟩).Remembers loc digestAt new ts := h.same hat hday rfl rfl
    obtain ⟨hat', hdigest, hfile, hpast⟩ := hsame
    refine ⟨hat', hdigest, hfile, hpast.imp_right ?_⟩
    rintro ⟨c, hc, hpast⟩
    exact ⟨c, List.mem_append_left [t] hc, hpast⟩

theorem Remembers.step (h : s.Remembers loc digestAt new ts) (x : NotifierStep) :
    (s.step loc x).Remembers loc digestAt new (ts ++ tickTimes [x]) := by
  obtain ⟨t, op⟩ := x
  cases op with
  | event e =>
    obtain ⟨hat, hday, hdigest⟩ := s.notifier.onEvent_frame loc t e
    rw [show tickTimes [⟨t, .event e⟩] = [] from rfl, List.append_nil]
    unfold SavedNotifier.step
    dsimp only
    split
    · exact h.same hat hday rfl rfl
    · rename_i hnot
      refine h.same hat hday (h.savedDay.trans hday.symm) (h.saved.trans (hdigest.resolve_left fun hinfo => hnot ?_).symm)
      rw [saves, decide_eq_true hinfo, Bool.true_or]
  | tick => exact h.tick t
  | config channels quiet =>
    rw [show tickTimes [⟨t, .config channels quiet⟩] = [] from rfl, List.append_nil]
    exact h.same rfl rfl h.savedDay h.saved
  | restart =>
    rw [show tickTimes [⟨t, .restart⟩] = [] from rfl, List.append_nil]
    exact h.same rfl h.savedDay rfl rfl

theorem Remembers.run (h : s.Remembers loc digestAt new ts) (steps : List NotifierStep) :
    (Runs.run (SavedNotifier.step loc) s steps).Remembers loc digestAt new (ts ++ tickTimes steps) := by
  induction steps generalizing s ts with
  | nil => rwa [show tickTimes [] = [] from rfl, List.append_nil]
  | cons x steps ih =>
    have := ih (h.step x)
    rwa [List.append_assoc, ← tickTimes_append] at this

private theorem remembers_fresh (loc : Locale) (channels : List Channel) (quiet : Option Quiet) (digestAt : ℕ) :
    (fresh channels quiet digestAt).Remembers loc digestAt True [] := ⟨rfl, rfl, rfl, Or.inl ⟨trivial, rfl⟩⟩

/-- No tick up to `a` can remember the day of a time after a due time that is later. -/
private theorem Remembers.day_ne (hloc : loc.Calendar) (h : s.Remembers loc digestAt new ts) {a b u : ℤ}
    (hts : ∀ c ∈ ts, c ≤ a) (hu : Due loc digestAt u) (hau : a < u) (hub : u ≤ b) :
    s.notifier.digestDay ≠ some (loc.day b) := by
  intro heq
  rcases h.day with ⟨-, hnone⟩ | ⟨c, hc, hday, hread⟩
  · rw [hnone] at heq
    cases heq
  · have hday : loc.day c = loc.day b := Option.some.inj (hday.symm.trans heq)
    have hca := hts c hc
    have hcu := hloc.stretch c u b (by omega) hub hday
    have := hu.2 c (by omega) hcu.symm
    omega

/-- A tick that acts does so after a due time that is later than the ticks that may be remembered. -/
private theorem Remembers.due_of_acts (hloc : loc.Calendar) (h : s.Remembers loc digestAt False ts) {a b : ℤ}
    (hts : ∀ c ∈ ts, a ≤ c ∧ c ≤ b) (hacts : s.notifier.Acts loc b) : ∃ u, Due loc digestAt u ∧ a < u ∧ u ≤ b := by
  rw [Notifier.acts_iff, h.time] at hacts
  obtain ⟨hread, hnew⟩ := hacts
  obtain ⟨u, hub, hday, hu⟩ := hloc.exists_due hread
  rcases h.day with ⟨hfalse, -⟩ | ⟨c, hc, hremembered, -⟩
  · exact hfalse.elim
  · refine ⟨u, hu, ?_, hub⟩
    obtain ⟨hac, hcb⟩ := hts c hc
    by_contra hua
    have hcday := hloc.stretch u c b (by omega) hcb hday
    exact hnew (hremembered.trans (by rw [hcday, hday]))

/-- For every time of the digest, and ticks in order with any events, edits of the channels and restarts between them:
when a due time lies after one tick and not after the next, that next tick empties the digest and sends what it holds
exactly when the clock reads the digest's time or later at it, or the digest is empty anyway; and between two ticks that
act on a due time there is one. -/
theorem due_digest_sent_iff (loc : Locale) (hloc : loc.Calendar) (channels : List Channel) (quiet : Option Quiet)
    (digestAt : ℕ) (before between : List NotifierStep) (a b : ℤ)
    (htimes : (tickTimes before ++ a :: tickTimes between ++ [b]).Pairwise (· ≤ ·)) :
    let n₀ := (Runs.run (step loc) (fresh channels quiet digestAt) before).notifier
    let n := (Runs.run (step loc) (fresh channels quiet digestAt) (before ++ ⟨a, .tick⟩ :: between)).notifier
    (tickTimes between = [] → (∃ u, Due loc digestAt u ∧ a < u ∧ u ≤ b) →
        (n.Sends loc b ↔ n.digest = [] ∨ digestAt ≤ loc.minutes b)) ∧
      (n₀.Acts loc a → n.Acts loc b → ∃ u, Due loc digestAt u ∧ a < u ∧ u ≤ b) := by
  intro n₀ n
  rw [List.append_assoc, List.pairwise_append, List.cons_append, List.pairwise_cons] at htimes
  obtain ⟨-, ⟨hafter, hrest⟩, hbefore⟩ := htimes
  have h₀ := (remembers_fresh loc channels quiet digestAt).run before
  constructor
  · rintro hnone ⟨u, hu, hau, hub⟩
    have h := (remembers_fresh loc channels quiet digestAt).run (before ++ ⟨a, .tick⟩ :: between)
    have hts : ∀ c ∈ [] ++ tickTimes (before ++ ⟨a, .tick⟩ :: between), c ≤ a := by
      intro c hc
      rw [List.nil_append, tickTimes_append, show tickTimes (⟨a, .tick⟩ :: between) = a :: tickTimes between from rfl,
        hnone, List.mem_append, List.mem_singleton] at hc
      rcases hc with hc | rfl
      · exact hbefore c hc a List.mem_cons_self
      · exact le_rfl
    have hnew := h.day_ne hloc hts hu hau hub
    obtain ⟨-, ⟨hdue, -, hsends⟩ | ⟨hnot, -, hdigest⟩⟩ := n.tick_spec loc b
    · rw [h.time] at hdue
      exact ⟨fun _ => Or.inr hdue.1, fun _ => hsends⟩
    · rw [h.time] at hnot
      constructor
      · rintro ⟨hempty, -⟩
        exact Or.inl (hdigest.symm.trans hempty)
      · rintro (hempty | hread)
        · exact ⟨hdigest.trans hempty, fun hne => absurd hempty hne⟩
        · exact absurd ⟨hread, hnew⟩ hnot
  · intro hfirst hacts
    -- the day of the first tick is the one remembered from then on
    have hstart : ((Runs.run (step loc) (fresh channels quiet digestAt) before).step loc ⟨a, .tick⟩).Remembers loc
        digestAt False [a] := by
      have h := h₀.tick a
      refine ⟨h.time, h.saved, h.savedDay, Or.inr ⟨a, List.mem_cons_self, ?_⟩⟩
      rw [Notifier.acts_iff, h₀.time] at hfirst
      obtain ⟨-, ⟨hdue, hday, -⟩ | ⟨hnot, -, -⟩⟩ := n₀.tick_spec loc a
      · exact ⟨hday, hfirst.1⟩
      · rw [h₀.time] at hnot
        exact absurd hfirst hnot
    have hrun : n = (Runs.run (step loc)
        ((Runs.run (step loc) (fresh channels quiet digestAt) before).step loc ⟨a, .tick⟩) between).notifier := by
      rw [← Runs.run_cons, ← Runs.run_append]
    have h := hstart.run between
    refine h.due_of_acts hloc (fun c hc => ?_) (hrun ▸ hacts)
    rw [List.singleton_append, List.mem_cons] at hc
    rcases hc with rfl | hc
    · exact ⟨le_rfl, hafter b (List.mem_append_right _ List.mem_cons_self)⟩
    · exact ⟨hafter c (List.mem_append_left _ hc),
        (List.pairwise_append.1 hrest).2.2 c hc b List.mem_cons_self⟩

/-! ### A day in UTC -/

/-- The number of a day, in decimal. -/
private def dayText (d : ℤ) : JsString :=
  (if d < 0 then [0x2d] else []) ++ (Nat.toDigits 10 d.natAbs).map fun c => UInt16.ofNat c.toNat

private theorem unit_of_digit {c : Char} (h : c.isDigit = true) :
    (UInt16.ofNat c.toNat).toNat = c.toNat ∧ UInt16.ofNat c.toNat ≠ 0x2d := by
  obtain ⟨hlow, hhigh⟩ := Char.isDigit_iff_toNat.1 h
  have hval : (UInt16.ofNat c.toNat).toNat = c.toNat := by
    rw [UInt16.toNat_ofNat']
    exact Nat.mod_eq_of_lt (hhigh.trans_lt (by decide))
  refine ⟨hval, fun heq => ?_⟩
  rw [heq] at hval
  have : c.toNat = 45 := hval.symm
  have : '0'.toNat = 48 := rfl
  omega

private theorem digits_inj {m n : ℕ}
    (h : (Nat.toDigits 10 m).map (fun c => UInt16.ofNat c.toNat) =
      (Nat.toDigits 10 n).map (fun c => UInt16.ofNat c.toNat)) : m = n := by
  have hdigits : Nat.toDigits 10 m = Nat.toDigits 10 n := by
    have hread : ∀ k, ((Nat.toDigits 10 k).map (fun c => UInt16.ofNat c.toNat)).map (fun u => Char.ofNat u.toNat) =
        Nat.toDigits 10 k := by
      intro k
      rw [List.map_map]
      refine (List.map_congr_left fun c hc => ?_).trans (List.map_id _)
      rw [Function.comp_apply, (unit_of_digit (Nat.isDigit_of_mem_toDigits (by decide) (by decide) hc)).1,
        Char.ofNat_toNat, id]
    rw [← hread m, ← hread n, h]
  rw [← @Nat.ofDigitChars_ten_toDigits m, hdigits, Nat.ofDigitChars_ten_toDigits]

private theorem dayText_inj {d e : ℤ} (h : dayText d = dayText e) : d = e := by
  have hminus : ∀ n m : ℕ, 0x2d :: (Nat.toDigits 10 n).map (fun c => UInt16.ofNat c.toNat) ≠
      (Nat.toDigits 10 m).map (fun c => UInt16.ofNat c.toNat) := by
    intro n m heq
    have hmem : (0x2d : UInt16) ∈ (Nat.toDigits 10 m).map fun c => UInt16.ofNat c.toNat :=
      heq ▸ List.mem_cons_self
    obtain ⟨c, hc, hu⟩ := List.mem_map.1 hmem
    exact (unit_of_digit (Nat.isDigit_of_mem_toDigits (by decide) (by decide) hc)).2 hu
  unfold dayText at h
  split at h
  · split at h
    · have := digits_inj (List.append_cancel_left h)
      omega
    · exact absurd h (hminus _ _)
  · split at h
    · exact absurd h.symm (hminus _ _)
    · have := digits_inj h
      omega

private def utcDays : Locale where
  minutes t := (t / 60000 % 1440).toNat
  day t := dayText (t / 86400000)
  number _ := []

private theorem calendar_utcDays : utcDays.Calendar where
  stretch t u v htu huv h := by
    have : t / 86400000 = v / 86400000 := dayText_inj h
    show dayText (u / 86400000) = dayText (t / 86400000)
    congr 1
    omega
  begins t := by
    refine ⟨t - 86400000, by omega, fun h => ?_⟩
    have : (t - 86400000) / 86400000 = t / 86400000 := dayText_inj h
    omega

private theorem due_utcDays {digestAt : ℕ} (day : ℤ) (h : digestAt < 1440) :
    Due utcDays digestAt (day * 86400000 + digestAt * 60000) := by
  refine ⟨?_, fun v hv hday => ?_⟩
  · show digestAt ≤ ((day * 86400000 + digestAt * 60000) / 60000 % 1440).toNat
    omega
  · have : v / 86400000 = (day * 86400000 + digestAt * 60000) / 86400000 := dayText_inj hday
    show (v / 60000 % 1440).toNat < digestAt
    omega

private theorem isNodeId_rebooted : isNodeId (js "nodeaaaaaaaa") = true := by decide

/-- A node is to be restarted. -/
private def rebootEvent (t : ℤ) : Event where
  kind := .firing
  rule := .default .rebootRequired
  name := none
  metric := some .rebootRequired
  severity := .info
  node := ⟨js "nodeaaaaaaaa", isNodeId_rebooted⟩
  nodeName := js "nas"
  sub := none
  value := some 1
  time := t
  since := t
  endedByRule := false

private def phone : List Channel := [⟨js "ch_n", .warning, true, true⟩]

/-- A tick before the digest's time, an event, and a restart. -/
private def morning : List NotifierStep :=
  [⟨419 * 60000 + 1000, .event (rebootEvent (419 * 60000 + 1000))⟩, ⟨419 * 60000 + 2000, .restart⟩]

/-- The next tick sends the digest. -/
theorem digest_sent_at_seven :
    (Runs.run (step utcDays) (fresh phone none 420) ([] ++ ⟨419 * 60000, .tick⟩ :: morning)).notifier.Sends utcDays
      (420 * 60000 + 7) := by
  refine ((due_digest_sent_iff utcDays calendar_utcDays phone none 420 [] morning (419 * 60000) (420 * 60000 + 7)
    (by decide)).1 rfl ⟨420 * 60000, ?_, by decide, by decide⟩).2 (Or.inr (by decide))
  exact due_utcDays 0 (by decide)

/-- A digest due at 23:59, and a timer that ticks at half past 23:58 and then ten seconds after midnight: the digest is
neither sent nor emptied. -/
theorem digest_missed_at_midnight :
    let day : ℤ := 86400000
    let n := (Runs.run (step utcDays) (fresh phone none 1439)
      [⟨day - 90000, .event (rebootEvent (day - 90000))⟩, ⟨day - 90000, .tick⟩]).notifier
    (Due utcDays 1439 (day - 60000) ∧ day - 90000 < day - 60000 ∧ day - 60000 ≤ day + 10000) ∧
      n.digest = [rebootEvent (day - 90000)] ∧ (n.tick utcDays (day + 10000)).digest = n.digest ∧
      (n.tick utcDays (day + 10000)).queued = [] :=
  ⟨⟨due_utcDays 0 (by decide), by decide, by decide⟩, by decide +kernel⟩

end SavedNotifier

end Servitals
