import Servitals.AlertTold
import Servitals.Notify

/-!
# Quiet hours

What a person is owed when quiet hours end: a line for each alert that now fires and has a held event, and for each
that was told as firing before and is over.  The summary gives exactly that unless an alert told as firing before
ended, fired again and ended inside: `releaseHeld` takes it for one that fired and ended inside.
-/

namespace Servitals

/-! ### What was told about an alert -/

/-- Rounds without a bound on the time between two marks. -/
def AnyGap (_ _ : ℤ) : Prop := True

instance : DecidableRel AnyGap := fun _ _ => .isTrue trivial

/-- The events about an identity, as marks. -/
def marksAbout (es : List Event) (id : Ident) : List (Rounds.Mark × ℤ) :=
  (es.filter fun e => e.ident = id).map fun e => (e.kind.mark, e.time)

/-- The events of every identity come in rounds: a firing, repeats, a resolved. -/
def InRounds (es : List Event) : Prop := ∀ id, (Rounds.read AnyGap none (marksAbout es id)).isSome = true

/-- The last that the events say of the identity is that it fires. -/
def FiringAfter (es : List Event) (id : Ident) : Prop := ∃ l, Rounds.read AnyGap none (marksAbout es id) = some (some l)

instance (es : List Event) (id : Ident) : Decidable (FiringAfter es id) :=
  decidable_of_iff ((Rounds.read AnyGap none (marksAbout es id)).join.isSome = true) (by
    rw [FiringAfter, Option.isSome_iff_exists]
    simp only [Option.join_eq_some_iff])

/-- The person does not know the state of the alert: it fires and has a held event, or it was told as firing and is
over. -/
def Owed (told held : List Event) (id : Ident) : Prop :=
  (∃ e ∈ held, e.ident = id) ∧ FiringAfter (told ++ held) id ∨ FiringAfter told id ∧ ¬ FiringAfter (told ++ held) id

/-- The alert was told as firing before, is over after, and fired again in between. -/
def FiredAgain (told held : List Event) (id : Ident) : Prop :=
  FiringAfter told id ∧ ¬ FiringAfter (told ++ held) id ∧ ∃ e ∈ held, e.ident = id ∧ e.kind = .firing

/-- Exactly one of the events for each alert the person is owed a line about. -/
def ExactSummary (told held es : List Event) : Prop :=
  (es.map Event.ident).Nodup ∧ ∀ id, id ∈ es.map Event.ident ↔ Owed told held id

/-- Only the identities that the events are about matter. -/
private theorem inRounds_iff {es : List Event} :
    InRounds es ↔ ∀ e ∈ es, (Rounds.read AnyGap none (marksAbout es e.ident)).isSome = true := by
  refine ⟨fun h e _ => h e.ident, fun h id => ?_⟩
  by_cases hid : ∃ e ∈ es, e.ident = id
  · obtain ⟨e, he, rfl⟩ := hid
    exact h e he
  · have hnil : marksAbout es id = [] := by
      rw [marksAbout, List.map_eq_nil_iff, List.filter_eq_nil_iff]
      intro e he
      simpa using fun h => hid ⟨e, he, h⟩
    rw [hnil]
    rfl

instance (es : List Event) : Decidable (InRounds es) := decidable_of_iff _ inRounds_iff.symm

private theorem marksAbout_append (es es' : List Event) (id : Ident) :
    marksAbout (es ++ es') id = marksAbout es id ++ marksAbout es' id := by
  simp [marksAbout]

/-! ### The summary -/

/-- The events of an alert. -/
def about (held : List Event) (id : Ident) : List Event := held.filter fun e => e.ident = id

private theorem about_snoc (held : List Event) (e : Event) (id : Ident) :
    about (held ++ [e]) id = about held id ++ if e.ident = id then [e] else [] := by
  rw [about, List.filter_append]
  by_cases h : e.ident = id <;> simp [about, h]

private theorem get?_last (held : List Event) (id : Ident) :
    (held.foldl noteHeld (OMap.empty, [])).1.get? id.key = (about held id).getLast? := by
  induction held using List.reverseRecOn with
  | nil => rfl
  | append_singleton held e ih =>
    rw [List.foldl_append, List.foldl_cons, List.foldl_nil, noteHeld, OMap.get?_set, ih, about_snoc]
    by_cases h : e.ident = id
    · rw [if_pos (by rw [h]), if_pos h, List.getLast?_concat]
    · rw [if_neg fun hk => h (Ident.key_inj hk).symm, if_neg h, List.append_nil]

private theorem key_of_last (held : List Event) {k : JsString} {e : Event}
    (h : (held.foldl noteHeld (OMap.empty, [])).1.get? k = some e) : e.ident.key = k := by
  induction held using List.reverseRecOn with
  | nil => cases h
  | append_singleton held e' ih =>
    rw [List.foldl_append, List.foldl_cons, List.foldl_nil, noteHeld, OMap.get?_set] at h
    split at h
    · rename_i hk
      cases h
      exact hk.symm
    · exact ih h

private theorem mem_firedInside (held : List Event) (id : Ident) :
    id.key ∈ (held.foldl noteHeld (OMap.empty, [])).2 ↔ ∃ e ∈ held, e.ident = id ∧ e.kind = .firing := by
  induction held using List.reverseRecOn with
  | nil => simp
  | append_singleton held e ih =>
    rw [List.foldl_append, List.foldl_cons, List.foldl_nil, noteHeld]
    have hkey : id.key = e.ident.key ↔ e.ident = id := ⟨fun h => (Ident.key_inj h).symm, fun h => by rw [h]⟩
    have hsnoc : (∃ e' ∈ held ++ [e], e'.ident = id ∧ e'.kind = .firing) ↔
        (∃ e' ∈ held, e'.ident = id ∧ e'.kind = .firing) ∨ e.ident = id ∧ e.kind = .firing := by
      simp [or_and_right, exists_or]
    rw [hsnoc, ← ih]
    by_cases hf : e.kind = .firing
    · simp only [hf, if_true, List.mem_cons, hkey, and_true]
      exact or_comm
    · simp [hf]

/-- An event is in the summary when it is the last of its alert, and is no end or the alert did not fire inside. -/
private theorem mem_summaryEvents {held : List Event} {e : Event} :
    e ∈ summaryEvents held ↔ (about held e.ident).getLast? = some e ∧
      (e.kind = .resolved → ¬ ∃ e' ∈ held, e'.ident = e.ident ∧ e'.kind = .firing) := by
  rw [← mem_firedInside, ← get?_last]
  simp only [summaryEvents, List.mem_map, List.mem_filter, Prod.exists, exists_eq_right, OMap.mem_entries_iff,
    Bool.or_eq_true, bne_iff_ne, Bool.not_eq_true', List.contains_eq_mem, decide_eq_false_iff_not]
  constructor
  · rintro ⟨k, hk, h⟩
    obtain rfl := key_of_last held hk
    exact ⟨hk, fun hres => h.resolve_left fun hne => hne hres⟩
  · rintro ⟨hk, h⟩
    exact ⟨_, hk, (em (e.kind = .resolved)).symm.imp id h⟩

private theorem nodup_summaryEvents (held : List Event) : ((summaryEvents held).map Event.ident).Nodup := by
  have hkeys : ((summaryEvents held).map Event.ident).map Ident.key =
      ((held.foldl noteHeld (OMap.empty, [])).1.entries.filter fun p => p.2.kind != .resolved ||
        !(held.foldl noteHeld (OMap.empty, [])).2.contains p.1).map Prod.fst := by
    simp only [summaryEvents, List.map_map]
    refine List.map_congr_left fun p hp => ?_
    exact key_of_last held (OMap.mem_entries_iff.1 (List.mem_of_mem_filter hp))
  refine List.Nodup.of_map Ident.key ?_
  rw [hkeys]
  exact (held.foldl noteHeld (OMap.empty, [])).1.nodup.sublist (List.filter_sublist.map _)

private theorem mem_ident_summaryEvents {held : List Event} {id : Ident} :
    id ∈ (summaryEvents held).map Event.ident ↔ ∃ e, (about held id).getLast? = some e ∧
      (e.kind = .resolved → ¬ ∃ e' ∈ held, e'.ident = id ∧ e'.kind = .firing) := by
  rw [List.mem_map]
  constructor
  · rintro ⟨e, he, rfl⟩
    exact ⟨e, mem_summaryEvents.1 he⟩
  · rintro ⟨e, hlast, h⟩
    have hid : e.ident = id := by
      have := List.mem_of_mem_getLast? hlast
      simpa [about] using (List.mem_filter.1 this).2
    subst hid
    exact ⟨e, mem_summaryEvents.2 ⟨hlast, h⟩, rfl⟩

/-! ### What the held events say of an alert -/

private theorem marksAbout_eq (held : List Event) (id : Ident) :
    marksAbout held id = (about held id).map fun e => (e.kind.mark, e.time) := rfl

/-- Marks that can be read outside a round begin with a start. -/
private theorem start_of_read {m : Rounds.Mark × ℤ} {ms : List (Rounds.Mark × ℤ)}
    (h : (Rounds.read AnyGap none (m :: ms)).isSome = true) : m.1 = .start := by
  obtain ⟨mark, t⟩ := m
  cases mark with
  | start => rfl
  | again => cases h
  | stop => cases h

/-- After marks that end in a stop no round is under way, after others one is. -/
private theorem read_last {p q : Option ℤ} {ms : List (Rounds.Mark × ℤ)} {m : Rounds.Mark × ℤ}
    (h : Rounds.read AnyGap p (ms ++ [m]) = some q) : q = none ↔ m.1 = .stop := by
  rw [Rounds.read_snoc, Option.bind_eq_some_iff] at h
  obtain ⟨r, -, h⟩ := h
  obtain ⟨mark, t⟩ := m
  cases r with
  | none =>
    cases mark with
    | start => cases h; simp
    | again => cases h
    | stop => cases h
  | some l =>
    cases mark with
    | start => cases h
    | again =>
      rw [Rounds.next_again, if_pos (show AnyGap l t from trivial)] at h
      cases h
      simp
    | stop => cases h; simp

private theorem mark_eq_stop {k : Kind} : k.mark = .stop ↔ k = .resolved := by
  cases k <;> simp [Kind.mark]

/-- The summary is right about one alert unless it fired again. -/
private theorem mem_iff_owed {told held : List Event} (h : InRounds (told ++ held)) (id : Ident) :
    (id ∈ (summaryEvents held).map Event.ident ↔ Owed told held id) ↔ ¬ FiredAgain told held id := by
  obtain ⟨q, hq⟩ := Option.isSome_iff_exists.1 (h id)
  have hq' := hq
  rw [marksAbout_append, Rounds.read_append, Option.bind_eq_some_iff] at hq'
  obtain ⟨p, hp, hpq⟩ := hq'
  have hbefore : FiringAfter told id ↔ p ≠ none := by
    rw [FiringAfter, hp, Option.ne_none_iff_exists']
    simp
  have hafter : FiringAfter (told ++ held) id ↔ q ≠ none := by
    rw [FiringAfter, hq, Option.ne_none_iff_exists']
    simp
  have hmem : (∃ e ∈ held, e.ident = id) ↔ about held id ≠ [] := by
    simp [about, List.filter_eq_nil_iff]
  rw [mem_ident_summaryEvents, Owed, FiredAgain, hbefore, hafter, hmem]
  rw [marksAbout_eq] at hpq
  rcases List.eq_nil_or_concat (about held id) with hnil | ⟨init, e, hsnoc⟩
  · rw [hnil] at hpq ⊢
    obtain rfl : p = q := by simpa using hpq
    simp +contextual
  · have hlast : q = none ↔ e.kind = .resolved := by
      rw [hsnoc, List.concat_eq_append, List.map_append] at hpq
      rw [← mark_eq_stop]
      exact read_last hpq
    have hfirst : p = none → ∃ e' ∈ held, e'.ident = id ∧ e'.kind = .firing := by
      rintro rfl
      obtain ⟨x, xs, hcons⟩ := List.exists_cons_of_ne_nil (l := about held id) (by simp [hsnoc])
      rw [hcons, List.map_cons] at hpq
      have hx : x ∈ about held id := by simp [hcons]
      have hstart : x.kind.mark = .start := start_of_read (by rw [hpq]; rfl)
      refine ⟨x, (List.mem_filter.1 hx).1, by simpa using (List.mem_filter.1 hx).2, ?_⟩
      revert hstart
      cases x.kind <;> simp [Kind.mark]
    have hne : about held id ≠ [] := by simp [hsnoc]
    generalize (∃ e' ∈ held, e'.ident = id ∧ e'.kind = .firing) = fired at hfirst ⊢
    simp only [hne, hlast, true_and, not_not, Ne, not_false_eq_true]
    rw [hsnoc, List.concat_eq_append, List.getLast?_concat]
    simp only [Option.some.injEq, exists_eq_left']
    by_cases hp : p = none
    · have := hfirst hp
      tauto
    · tauto

/-- **The summary is exact unless an alert fired again.** -/
private theorem exactSummary_iff {told held : List Event} (h : InRounds (told ++ held)) :
    ExactSummary told held (summaryEvents held) ↔ ∀ id, ¬ FiredAgain told held id := by
  rw [ExactSummary, and_iff_right (nodup_summaryEvents held)]
  exact forall_congr' fun id => mem_iff_owed h id

/-! ### One window -/

namespace Notifier

/-- The warnings among the calls. -/
def warnings (calls : List Call) : List Event :=
  calls.filterMap fun
    | .event e _ => if e.severity = .warning then some e else none
    | .tick _ => none

/-- The events among the calls. -/
def events (calls : List Call) : List Event :=
  calls.filterMap fun
    | .event e _ => some e
    | .tick _ => none

/-- What the notifier puts in the queues for the summary of the events. -/
def summaryQueued (loc : Locale) (n : Notifier) (es : List Event) : List (JsString × Message) :=
  if es = [] then []
  else (n.channels.filter fun c => c.on && decide (Severity.warning.rank ≤ c.min.rank)).map fun c =>
    (c.id, summaryMessage loc es)

variable {loc : Locale} {n : Notifier}

/-- A call in quiet hours holds the warning it brings, if any, and changes neither the channels nor the hours. -/
private theorem call_quiet {c : Call} (hq : n.inQuiet loc c.time = true)
    (hmax : (n.held ++ warnings [c]).length ≤ MAX_HELD) :
    (n.call loc c).held = n.held ++ warnings [c] ∧ (n.call loc c).channels = n.channels ∧
      (n.call loc c).quiet = n.quiet := by
  have hrel : n.releaseDue loc c.time = n := by
    rw [releaseDue, if_neg]
    rintro ⟨-, h⟩
    rw [hq] at h
    cases h
  cases c with
  | tick t =>
    rw [call, tick, show n.releaseDue loc t = n from hrel]
    have hnone : warnings [.tick t] = [] := rfl
    rw [hnone, List.append_nil]
    dsimp only
    split
    · split <;> exact ⟨rfl, rfl, rfl⟩
    · exact ⟨rfl, rfl, rfl⟩
  | event e t =>
    rw [call, onEvent, show n.releaseDue loc t = n from hrel]
    have hq' : n.inQuiet loc t = true := hq
    cases hs : e.severity with
    | critical => simp [hs, Severity.rank, warnings, deliver]
    | info => simp [Severity.rank, warnings, hs]
    | warning =>
      have hwarn : warnings [.event e t] = [e] := by simp [warnings, hs]
      rw [hwarn] at hmax ⊢
      have hdrop : (n.held ++ [e]).drop ((n.held ++ [e]).length - MAX_HELD) = n.held ++ [e] := by
        rw [Nat.sub_eq_zero_of_le hmax, List.drop_zero]
      simp only [Severity.rank, hq', hdrop]
      simp

private theorem warnings_cons (c : Call) (calls : List Call) :
    warnings (c :: calls) = warnings [c] ++ warnings calls := by
  rw [← List.singleton_append, warnings, List.filterMap_append]
  rfl

/-- The calls of a window hold its warnings, in order. -/
private theorem run_quiet {calls : List Call} (hq : ∀ c ∈ calls, n.inQuiet loc c.time = true)
    (hmax : (n.held ++ warnings calls).length ≤ MAX_HELD) :
    let n' := Runs.run (call loc) n calls
    n'.held = n.held ++ warnings calls ∧ n'.channels = n.channels ∧ n'.quiet = n.quiet := by
  induction calls generalizing n with
  | nil => simp [warnings]
  | cons c calls ih =>
    rw [warnings_cons, ← List.append_assoc] at hmax ⊢
    have hle : (n.held ++ warnings [c]).length ≤ MAX_HELD := by
      rw [List.length_append] at hmax
      omega
    obtain ⟨hheld, hchannels, hquiet⟩ := call_quiet (hq c List.mem_cons_self) hle
    have hq' : ∀ c' ∈ calls, (n.call loc c).inQuiet loc c'.time = true := by
      intro c' hc'
      rw [inQuiet, hquiet]
      exact hq c' (List.mem_cons_of_mem _ hc')
    obtain ⟨h1, h2, h3⟩ := ih hq' (by rw [hheld]; exact hmax)
    exact ⟨by rw [Runs.run_cons, h1, hheld], h2.trans hchannels, h3.trans hquiet⟩

variable (loc) in
/-- What a call queues comes after what was queued. -/
private theorem queued_call (n : Notifier) (c : Call) :
    ∃ rest, (n.call loc c).queued = (n.releaseDue loc c.time).queued ++ rest := by
  cases c with
  | tick t =>
    rw [call, tick, Call.time]
    generalize n.releaseDue loc t = m
    dsimp only
    split
    · split
      · exact ⟨[], (List.append_nil _).symm⟩
      · exact ⟨_, rfl⟩
    · exact ⟨[], (List.append_nil _).symm⟩
  | event e t =>
    rw [call, onEvent, Call.time]
    generalize n.releaseDue loc t = m
    dsimp only
    split
    · exact ⟨[], (List.append_nil _).symm⟩
    · split
      · exact ⟨[], (List.append_nil _).symm⟩
      · exact ⟨_, rfl⟩

/-- The first call after the window queues the summary first. -/
private theorem queued_releaseDue {t : ℤ} (hq : n.inQuiet loc t = false) :
    (n.releaseDue loc t).queued = n.queued ++ n.summaryQueued loc (summaryEvents n.held) := by
  rw [releaseDue]
  by_cases hheld : n.held = []
  · rw [if_neg fun h => h.1 hheld, hheld]
    exact (List.append_nil _).symm
  · rw [if_pos ⟨hheld, hq⟩, releaseHeld, summaryQueued]
    split
    · exact (List.append_nil _).symm
    · rfl

/-- **The summary of a window of quiet hours.**  The first call after the window puts first in the queues of the
channels one summary of the warnings held; it has exactly one line for each alert the person is owed one about, if and
only if no alert told as firing before the window and over after it fired again inside. -/
theorem summary_exact_iff {told : List Event} {calls : List Call} {last : Call} (hheld : n.held = [])
    (hquiet : ∀ c ∈ calls, n.inQuiet loc c.time = true) (hlast : n.inQuiet loc last.time = false)
    (hmax : (warnings calls).length ≤ MAX_HELD) (hrounds : InRounds (told ++ warnings calls)) :
    let n' := Runs.run (call loc) n calls
    let es := summaryEvents (warnings calls)
    (∃ rest, (n'.call loc last).queued = n'.queued ++ n.summaryQueued loc es ++ rest) ∧
      (ExactSummary told (warnings calls) es ↔ ∀ id, ¬ FiredAgain told (warnings calls) id) := by
  intro n' es
  obtain ⟨hh, hc, hq⟩ := run_quiet hquiet (by rwa [hheld, List.nil_append])
  refine ⟨?_, exactSummary_iff hrounds⟩
  have hout : n'.inQuiet loc last.time = false := by
    rw [inQuiet, hq]
    exact hlast
  obtain ⟨rest, hrest⟩ := queued_call loc n' last
  refine ⟨rest, ?_⟩
  rw [hrest, queued_releaseDue hout, hh, hheld, List.nil_append, summaryQueued, hc]
  rfl

/-- The rounds that the window needs are those the engine tells, when no alert changes its severity in the window. -/
theorem inRounds_of_engine {saved : List SavedRule} {ops : List Engine.Call} {told : List Event} {calls : List Call}
    (htold : (Runs.run Engine.call (Engine.create (buildRules saved)) ops).told = told ++ events calls)
    (hsev : ∀ e ∈ events calls, ∀ e' ∈ events calls, e.ident = e'.ident → e.severity = e'.severity) :
    InRounds (told ++ warnings calls) := by
  have htells : Tells (Runs.run Engine.call (Engine.create (buildRules saved)) ops) :=
    Runs.invariant (fun e c h => h.call c) (Tells.create saved) ops
  intro id
  have hall : (Rounds.read AnyGap none (marksAbout (told ++ events calls) id)).isSome = true := by
    obtain ⟨p, hp, -⟩ := htells.reads id
    rw [Engine.toldAbout, htold] at hp
    have hany : Rounds.read AnyGap none (marksAbout (told ++ events calls) id) = some p :=
      Rounds.read_mono Daily (fun _ _ _ => trivial) hp
    rw [hany]
    rfl
  have hwarnings : warnings calls = (events calls).filter fun e => e.severity = .warning := by
    rw [warnings, events, List.filter_filterMap]
    refine List.filterMap_congr fun c _ => ?_
    cases c with
    | tick t => rfl
    | event e t => by_cases h : e.severity = .warning <;> simp [h, Option.filter]
  by_cases hex : ∃ e ∈ events calls, e.ident = id ∧ e.severity = .warning
  · obtain ⟨e, he, hid, hs⟩ := hex
    have hsame : marksAbout (warnings calls) id = marksAbout (events calls) id := by
      rw [marksAbout, marksAbout, hwarnings, List.filter_filter]
      congr 1
      refine List.filter_congr fun e' he' => ?_
      by_cases hid' : e'.ident = id
      · simp [hid', ← hsev e he e' he' (hid.trans hid'.symm), hs]
      · simp [hid']
    rwa [marksAbout_append, hsame, ← marksAbout_append]
  · have hnone : marksAbout (warnings calls) id = [] := by
      rw [marksAbout, hwarnings, List.filter_filter, List.map_eq_nil_iff, List.filter_eq_nil_iff]
      intro e he
      simpa using fun hid hs => hex ⟨e, he, hid, hs⟩
    rw [marksAbout_append, Rounds.read_append] at hall
    rw [marksAbout_append, hnone, List.append_nil]
    cases hread : Rounds.read AnyGap none (marksAbout told id) with
    | none =>
      rw [hread] at hall
      cases hall
    | some p => rfl

end Notifier

/-! ### Two nights -/

namespace Night

private def utc : Locale where
  minutes t := (t / 60000 % 1440).toNat
  day t := js (toString (t / 86400000))
  number _ := []

private def phone : Notifier where
  channels := [⟨js "ch_n", .warning, true, true⟩]
  quiet := some ⟨1380, 420⟩
  digestAt := 420
  held := []
  digest := []
  digestDay := none
  queued := []

private theorem isNodeId_disk : isNodeId (js "nodeaaaaaaaa") = true := by decide

/-- A warning about a disk of a node. -/
private def diskEvent (kind : Kind) (sub : String) (minute : ℤ) : Event where
  kind := kind
  rule := .default .diskFull
  name := none
  metric := some .diskUsed
  severity := .warning
  node := ⟨js "nodeaaaaaaaa", isNodeId_disk⟩
  nodeName := js "nas"
  sub := some (js sub)
  value := some 92
  time := minute * 60000
  since := minute * 60000
  endedByRule := false

private def at_ (e : Event) : Notifier.Call := .event e e.time

/-- One disk was told as full before the window and is over in it, another becomes full inside. -/
theorem summary_of_two :
    let told := [diskEvent .firing "/srv" 1320]
    let calls := [at_ (diskEvent .firing "/b" 1410), at_ (diskEvent .resolved "/srv" 1500)]
    ExactSummary told (Notifier.warnings calls) (summaryEvents (Notifier.warnings calls)) := by
  refine ((@Notifier.summary_exact_iff utc phone _ _ (.tick 111600000) rfl ?_ ?_ ?_ ?_).2).2 ?_
  · decide +kernel
  · decide +kernel
  · decide +kernel
  · decide +kernel
  · have hlast : ∀ e ∈ Notifier.warnings [at_ (diskEvent .firing "/b" 1410), at_ (diskEvent .resolved "/srv" 1500)],
        e.kind = .firing → ¬ FiringAfter [diskEvent .firing "/srv" 1320] e.ident := by decide +kernel
    rintro id ⟨h1, h2, e, he, rfl, hf⟩
    exact hlast e he hf h1

/-- A disk told as full before the window that is over, full again and over again inside is left out. -/
theorem fired_again_left_out :
    let told := [diskEvent .firing "/srv" 1320]
    let calls := [at_ (diskEvent .resolved "/srv" 1410), at_ (diskEvent .firing "/srv" 1440),
      at_ (diskEvent .resolved "/srv" 1500)]
    let id := (diskEvent .firing "/srv" 1320).ident
    InRounds (told ++ Notifier.warnings calls) ∧ Owed told (Notifier.warnings calls) id ∧
      ((Runs.run (Notifier.call utc) phone calls).call utc (.tick 111600000)).queued = [] ∧
        ¬ ExactSummary told (Notifier.warnings calls) (summaryEvents (Notifier.warnings calls)) := by
  intro told calls id
  have howed : Owed told (Notifier.warnings calls) id := Or.inr (by decide +kernel)
  have hnil : summaryEvents (Notifier.warnings calls) = [] := by decide +kernel
  refine ⟨by decide +kernel, howed, by decide +kernel, fun h => ?_⟩
  have hmem := (h.2 id).2 howed
  rw [hnil] at hmem
  cases hmem

end Night

end Servitals
