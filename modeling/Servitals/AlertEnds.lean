import Servitals.AlertRestart
import Servitals.Notify

/-!
# The end of an alert, as a channel hears it

The engine and the notifier together: each event the engine passes on goes to the channels at once.  Outside quiet
hours a channel is given the events of the severities it wants, and the severity of an event is that of its rule when
the event is told.  So a channel that was given an alert's firing message is given its resolved message too, when the
severity its rule has as the alert ends is one the channel wants (`resolved_given_too`).  Otherwise the channel is left
with an alert that never ends (`end_not_given`).
-/

namespace Servitals

/-! ### What a channel is given -/

/-- Is a message of the severity one the channel is given at once?  Info events wait for the digest. -/
def Channel.wants (c : Channel) (s : Severity) : Bool := decide (s.rank < 2) && decide (s.rank ≤ c.min.rank)

namespace Notifier

variable {loc : Locale} {n : Notifier} {c : Channel}

/-- The events whose messages were put in the channel's queue. -/
def given (n : Notifier) (c : Channel) : List Event :=
  n.queued.filterMap fun m => if m.1 = c.id then m.2.event else none

/-- The channel is configured, and no other has its id. -/
structure Has (n : Notifier) (c : Channel) : Prop where
  mem : c ∈ n.channels
  nodup : (n.channels.map Channel.id).Nodup

private theorem filterMap_channels {cs : List Channel} (hnodup : (cs.map Channel.id).Nodup) (hc : c ∈ cs)
    (p : Channel → Bool) (o : Option Event) :
    (cs.filter p).filterMap (fun x => if x.id = c.id then o else none) = if p c then o.toList else [] := by
  induction cs with
  | nil => cases hc
  | cons x cs ih =>
    rw [List.map_cons, List.nodup_cons] at hnodup
    have hrest : ∀ y ∈ cs, y.id ≠ x.id := fun y hy heq => hnodup.1 (heq ▸ List.mem_map_of_mem hy)
    by_cases hx : x = c
    · subst hx
      have hnone : (cs.filter p).filterMap (fun y => if y.id = x.id then o else none) = [] := by
        rw [List.filterMap_eq_nil_iff]
        intro y hy
        rw [if_neg (hrest y (List.mem_of_mem_filter hy))]
      rw [List.filter_cons]
      split
      · rw [List.filterMap_cons, if_pos rfl, hnone]
        cases o <;> rfl
      · exact hnone
    · have hmem : c ∈ cs := (List.mem_cons.1 hc).resolve_left (Ne.symm hx)
      have hne : x.id ≠ c.id := fun heq => hrest c hmem heq.symm
      rw [← ih hnodup.2 hmem, List.filter_cons]
      split
      · rw [List.filterMap_cons, if_neg hne]
      · rfl

private theorem given_congr {m : Notifier} (h : m.queued = n.queued) : m.given c = n.given c := by
  rw [given, given, h]

/-- A message goes to the channel when it is on and wanted. -/
private theorem given_deliver (h : n.Has c) (m : Message) (p : Channel → Bool) :
    (n.deliver m p).given c = n.given c ++ if c.on && p c then m.event.toList else [] := by
  rw [given, deliver, List.filterMap_append, List.filterMap_map, given]
  congr 1
  exact filterMap_channels h.nodup h.mem (fun c => c.on && p c) m.event

/-- The summary of quiet hours is about no one event. -/
private theorem given_releaseDue (h : n.Has c) (t : ℤ) :
    (n.releaseDue loc t).given c = n.given c ∧ (n.releaseDue loc t).channels = n.channels := by
  unfold releaseDue
  split
  · unfold releaseHeld
    dsimp only
    split
    · exact ⟨rfl, rfl⟩
    · have h' : Has { n with held := [] } c := ⟨h.mem, h.nodup⟩
      refine ⟨?_, rfl⟩
      rw [given_deliver h']
      show n.given c ++ (if _ then [] else []) = n.given c
      rw [ite_self, List.append_nil]
  · exact ⟨rfl, rfl⟩

/-- Outside quiet hours an event is given to the channels that want its severity. -/
private theorem given_onEvent (h : n.Has c) (hon : c.on = true) (e : Event) {t : ℤ} (ht : n.inQuiet loc t = false) :
    (n.onEvent loc e t).given c = n.given c ++ [e].filter (fun e => c.wants e.severity) ∧
      (n.onEvent loc e t).channels = n.channels ∧ (n.onEvent loc e t).quiet = n.quiet := by
  have hquiet : (n.releaseDue loc t).quiet = n.quiet := by
    unfold releaseDue releaseHeld
    split
    · dsimp only
      split <;> rfl
    · rfl
  have hnot : (n.releaseDue loc t).inQuiet loc t = false := by
    unfold inQuiet at ht ⊢
    rw [hquiet]
    exact ht
  obtain ⟨hgiven, hchannels⟩ := given_releaseDue h t
  have h' : (n.releaseDue loc t).Has c := ⟨hchannels ▸ h.mem, hchannels ▸ h.nodup⟩
  unfold onEvent
  dsimp only
  split
  · rename_i hinfo
    have hwants : c.wants e.severity = false := by
      rw [Channel.wants, decide_eq_false (by omega), Bool.false_and]
    rw [List.filter_cons, hwants, ← hgiven, if_neg Bool.false_ne_true, List.filter_nil, List.append_nil]
    refine ⟨given_congr ?_, hchannels, hquiet⟩
    rfl
  · rename_i hinfo
    rw [hnot, if_neg fun hc => Bool.false_ne_true hc.2]
    refine ⟨?_, hchannels, hquiet⟩
    have hwants : c.wants e.severity = decide (e.severity.rank ≤ c.min.rank) := by
      rw [Channel.wants, decide_eq_true (show e.severity.rank < 2 by omega), Bool.true_and]
    rw [given_deliver h', hgiven, hon, Bool.true_and, List.filter_cons, hwants]
    split <;> rfl

/-- Outside quiet hours a channel is given those of the events that it wants. -/
private theorem given_onEvents (h : n.Has c) (hon : c.on = true) (es : List Event) {t : ℤ}
    (ht : n.inQuiet loc t = false) :
    (es.foldl (fun n e => n.onEvent loc e t) n).given c = n.given c ++ es.filter (fun e => c.wants e.severity) ∧
      (es.foldl (fun n e => n.onEvent loc e t) n).channels = n.channels := by
  induction es generalizing n with
  | nil => exact ⟨(List.append_nil _).symm, rfl⟩
  | cons e es ih =>
    obtain ⟨hgiven, hchannels, hquiet⟩ := given_onEvent h hon e ht
    have ht' : (n.onEvent loc e t).inQuiet loc t = false := by
      unfold inQuiet at ht ⊢
      rw [hquiet]
      exact ht
    obtain ⟨hrest, hchannels'⟩ := ih ⟨hchannels ▸ h.mem, hchannels ▸ h.nodup⟩ ht'
    refine ⟨?_, hchannels'.trans hchannels⟩
    rw [List.foldl_cons, hrest, hgiven, List.append_assoc, ← List.filter_append, List.singleton_append]

/-- The digest is about no one event. -/
private theorem given_tick (h : n.Has c) (t : ℤ) :
    (n.tick loc t).given c = n.given c ∧ (n.tick loc t).channels = n.channels := by
  have hreleased : (n.releaseDue loc t).given c = n.given c ∧ (n.releaseDue loc t).channels = n.channels :=
    given_releaseDue h t
  obtain ⟨hgiven, hchannels⟩ := hreleased
  have h' : (n.releaseDue loc t).Has c := ⟨hchannels ▸ h.mem, hchannels ▸ h.nodup⟩
  unfold tick
  dsimp only
  split
  · split
    · exact ⟨hgiven, hchannels⟩
    · refine ⟨?_, hchannels⟩
      have hmessage := given_deliver (n := { n.releaseDue loc t with digestDay := some (loc.day t) }) (c := c)
        ⟨h'.mem, h'.nodup⟩ (digestMessage loc (n.releaseDue loc t).digest) (fun c => c.digest)
      rw [show (digestMessage loc (n.releaseDue loc t).digest).event.toList = [] from rfl, ite_self,
        List.append_nil] at hmessage
      exact hmessage.trans hgiven
  · exact ⟨hgiven, hchannels⟩

end Notifier

/-! ### The alert under way -/

/-- The firing event of the alert under way, after one more event. -/
def follow (id : Ident) (p : Option Event) (e : Event) : Option Event :=
  if e.ident = id then match e.kind with
    | .firing => some e
    | .repeated => p
    | .resolved => none
  else p

/-- The firing event of the alert under way. -/
def startOf (es : List Event) (id : Ident) : Option Event := es.foldl (follow id) none

/-- The channel wants the alert that is under way, so it was given its firing message. -/
def Awaits (c : Channel) (es : List Event) (id : Ident) : Prop := ∃ f, startOf es id = some f ∧ c.wants f.severity = true

/-- The channel wants the end of each alert whose start it wanted. -/
def Answered (c : Channel) (es : List Event) : Prop :=
  ∀ pre r post, es = pre ++ r :: post → r.kind = .resolved → Awaits c pre r.ident → c.wants r.severity = true

variable {c : Channel} {es new : List Event} {id : Ident} {s : Severity}

private theorem startOf_snoc (es : List Event) (e : Event) (id : Ident) :
    startOf (es ++ [e]) id = follow id (startOf es id) e := by
  rw [startOf, List.foldl_append]
  rfl

/-- An alert under way after events of one severity was under way before, or that is its severity. -/
private theorem Awaits.of_append {id' : Ident} (h : Awaits c (es ++ new) id')
    (hnew : ∀ e ∈ new, e.ident = id ∧ e.severity = s) : Awaits c es id' ∨ id' = id ∧ c.wants s = true := by
  induction new using List.reverseRecOn with
  | nil => exact Or.inl (by rwa [List.append_nil] at h)
  | append_singleton new e ih =>
    obtain ⟨f, hf, hwants⟩ := h
    have he := hnew e (by simp)
    have hrest : Awaits c (es ++ new) id' → Awaits c es id' ∨ id' = id ∧ c.wants s = true :=
      fun h => ih h fun e' he' => hnew e' (List.mem_append_left _ he')
    rw [← List.append_assoc, startOf_snoc, follow] at hf
    split at hf
    · rename_i hid
      split at hf
      · obtain rfl := Option.some.inj hf
        exact Or.inr ⟨hid.symm.trans he.1, he.2 ▸ hwants⟩
      · exact hrest ⟨f, hf, hwants⟩
      · cases hf
    · exact hrest ⟨f, hf, hwants⟩

/-- An end starts no alert. -/
private theorem Awaits.of_resolved {id' : Ident} (h : Awaits c (es ++ new) id') (hnew : ∀ e ∈ new, e.kind = .resolved) :
    Awaits c es id' := by
  induction new using List.reverseRecOn with
  | nil => rwa [List.append_nil] at h
  | append_singleton new e ih =>
    refine ih ?_ fun e' he' => hnew e' (List.mem_append_left _ he')
    obtain ⟨f, hf, hwants⟩ := h
    rw [← List.append_assoc, startOf_snoc, follow, hnew e (by simp)] at hf
    split at hf
    · cases hf
    · exact ⟨f, hf, hwants⟩

/-- Events of one alert, of a severity that the channel wants if it awaits the end and one of them is it. -/
theorem Answered.append (h : Answered c es) (hnew : ∀ e ∈ new, e.ident = id ∧ e.severity = s)
    (hwants : (∃ e ∈ new, e.kind = .resolved) → Awaits c es id → c.wants s = true) : Answered c (es ++ new) := by
  intro pre r post heq hr hawaits
  rcases List.append_eq_append_iff.1 heq with ⟨mid, rfl, hmid⟩ | ⟨mid, rfl, hmid⟩
  · have hpre : ∀ e ∈ mid, e.ident = id ∧ e.severity = s := fun e he =>
      hnew e (hmid ▸ List.mem_append_left _ he)
    obtain ⟨hid, hs⟩ := hnew r (hmid ▸ List.mem_append_right _ List.mem_cons_self)
    rw [hs]
    rcases hawaits.of_append hpre with hbefore | ⟨-, hs'⟩
    · exact hwants ⟨r, hmid ▸ List.mem_append_right _ List.mem_cons_self, hr⟩ (hid ▸ hbefore)
    · exact hs'
  · cases mid with
    | nil =>
      rw [List.append_nil] at h
      rw [List.nil_append] at hmid
      have hmem : r ∈ new := hmid ▸ List.mem_cons_self
      obtain ⟨hid, hs⟩ := hnew r hmem
      rw [hs]
      exact hwants ⟨r, hmem, hr⟩ (by rw [List.append_nil]; exact hid ▸ hawaits)
    | cons x mid =>
      obtain ⟨rfl, rfl⟩ := List.cons.inj hmid
      exact h pre r mid rfl hr hawaits

/-! ### What an act tells -/

/-- The severity of what an act tells. -/
def Act.severity : Act → Severity
  | .judged r _ _ _ => r.severity
  | .retell _ r => r.severity
  | .finish _ r _ => r.severity
  | .drop i => i.severity.getD .warning

/-- Can the act tell the end of its alert? -/
def Act.Ends : Act → Prop
  | .judged r _ _ value => r.isOver value = true
  | .retell _ _ | .drop _ => False
  | .finish _ _ _ => True

/-- Only notes of the severity were added, and ends only if `ended`. -/
def Says (s : Severity) (ended : Prop) (e e' : Engine) : Prop :=
  ∃ ns, e'.notes = e.notes ++ ns ∧ ∀ n ∈ ns, n.event.severity = s ∧ (n.event.kind = .resolved → ended)

namespace Engine

variable {e : Engine}

private theorem says_nothing {ended : Prop} {e' : Engine} (h : e'.notes = e.notes) : Says s ended e e' :=
  ⟨[], by rw [h, List.append_nil], by simp⟩

private theorem says_tell (e : Engine) {kind : Kind} (i : Inst) (r : RuleInfo) (t : ℤ) (b : Bool) {ended : Prop}
    (h : kind = .resolved → ended) : Says r.severity ended e (e.tell kind i r t b) :=
  ⟨_, rfl, fun n hn => by
    rw [List.mem_singleton.1 hn]
    exact ⟨rfl, h⟩⟩

private theorem says_retell (e : Engine) (i : Inst) (r : Rule) (t : ℤ) {ended : Prop} :
    Says r.severity ended e (e.retell i r t) := by
  unfold retell
  split
  · exact says_tell e i r.info t false (by simp)
  · split
    · exact says_tell e i r.info t false (by simp)
    · exact says_nothing rfl

private theorem says_judgeInst (e : Engine) (i : Inst) (r : Rule) (value : Option ℚ) (t : ℤ) :
    Says r.severity (r.isOver value = true) e (e.judgeInst i r value t) := by
  unfold judgeInst
  dsimp only
  split
  · split
    · rename_i hover
      exact says_tell (e.put i) i r.info t false fun _ => hover
    · exact says_retell (e.put i) i r t
  · split
    · unfold ripen
      dsimp only
      split
      · exact says_tell (((e.put i).put (i.started t)).put ((i.started t).fired r t)) _ r.info t false (by simp)
      · exact says_nothing rfl
    · exact says_nothing rfl

private theorem says_judge (e : Engine) (r : Rule) (node : Node) (sub : JsString) (value : Option ℚ) (t : ℤ) :
    Says r.severity (r.isOver value = true) e (e.judge r node sub value t) := by
  unfold judge
  split
  · exact says_judgeInst e _ r value t
  · split
    · exact says_judgeInst e _ r value t
    · exact says_nothing rfl

private theorem says_finish (e : Engine) (i : Inst) (r : RuleInfo) (b : Bool) (t : ℤ) :
    Says r.severity True e (e.finish i r b t) := by
  unfold finish
  split
  · exact says_tell e i r t b fun _ => trivial
  · exact says_nothing rfl

private theorem says_act (e : Engine) (t : ℤ) (a : Act) : Says a.severity a.Ends e (e.act t a) := by
  cases a with
  | judged r node sub value => exact says_judge e r node sub value t
  | retell i r => exact says_retell e i r t
  | finish i r b => exact says_finish e i r b t
  | drop i => exact says_nothing rfl

/-- What an allowed act tells is of its identity and severity, and no end if it cannot tell one. -/
private theorem told_act {allowed : Engine → Act → Prop} (hlive : OnLive allowed) {a : Act} (ha : allowed e a) (t : ℤ) :
    ∃ es, (e.act t a).told = e.told ++ es ∧ (∀ ev ∈ es, ev.ident = a.ident ∧ ev.severity = a.severity) ∧
      ((∃ ev ∈ es, ev.kind = .resolved) → a.Ends) := by
  obtain ⟨ns, htouch⟩ := act_touches hlive ha (t := t)
  obtain ⟨ns', hns', hseverity⟩ := says_act e t a
  obtain rfl : ns = ns' := List.append_cancel_left (htouch.notes.symm.trans hns')
  have hnote : ∀ ev ∈ ns.filterMap (fun n => if n.quiet.isNone then some n.event else none),
      ∃ n ∈ ns, n.event = ev := by
    intro ev hev
    obtain ⟨n, hn, hev⟩ := List.mem_filterMap.1 hev
    split at hev
    · exact ⟨n, hn, Option.some.inj hev⟩
    · cases hev
  refine ⟨ns.filterMap fun n => if n.quiet.isNone then some n.event else none, ?_, fun ev hev => ?_, ?_⟩
  · rw [told, htouch.notes, List.filterMap_append, told]
  · obtain ⟨n, hn, rfl⟩ := hnote ev hev
    exact ⟨htouch.about n hn, (hseverity n hn).1⟩
  · rintro ⟨ev, hev, hk⟩
    obtain ⟨n, hn, rfl⟩ := hnote ev hev
    exact (hseverity n hn).2 hk

/-- An end tells ends. -/
private theorem told_finish (e : Engine) (i : Inst) (r : RuleInfo) (b : Bool) (t : ℤ) :
    ∃ es, (e.finish i r b t).told = e.told ++ es ∧ ∀ ev ∈ es, ev.kind = .resolved := by
  obtain ⟨ns, htouch, hns⟩ := finish_touches e i r b t
  refine ⟨ns.filterMap fun n => if n.quiet.isNone then some n.event else none, ?_, fun ev hev => ?_⟩
  · rw [told, htouch.notes, List.filterMap_append, told]
  · obtain ⟨n, hn, hev⟩ := List.mem_filterMap.1 hev
    split at hev
    · obtain rfl := Option.some.inj hev
      rcases hns with ⟨-, rfl⟩ | ⟨-, rfl⟩
      · rw [List.mem_singleton.1 hn]
        rfl
      · cases hn
    · cases hev

end Engine

/-! ### When an alert ends -/

/-- A push of the node ends the rule's alert of the sub: the rule does not hold for the node, the value is over, or the
sub is gone from a group that is present. -/
def Rule.endedByPush (rule : Rule) (node : Node) (v : View) (run : List JsString) (sub : JsString) : Bool :=
  match forNode rule node with
  | none => true
  | some r =>
    if r.metric = .offline then sub == [] && r.isOver (some 0)
    else match valuesOf r.metric v run with
      | none => false
      | some vals =>
        !((Engine.watched r vals).map SubValue.sub).contains sub ||
          (Engine.watched r vals).any fun x => x.sub == sub && r.isOver (some x.value)

/-- The minute's check of the node ends the rule's alert there: the rule does not hold for the node, or it is the one
that says the node is offline, and the node is not. -/
def Rule.endedByCheck (rule : Rule) (n : CheckedNode) (t : ℤ) : Bool :=
  match n.lastPush.filter (· != 0) with
  | none => false
  | some last => match forNode rule n.toNode with
    | none => true
    | some r => rule.metric == .offline && r.isOver (some (if limitOf n.interval ≤ t - last then 1 else 0))

/-- New rules end the alert whose rule is off, or gone: the channel wants the severity of the rule, or of what is left
of it. -/
def PrunedWanted (c : Channel) (e : Engine) (old new : List Rule) (id : Ident) : Prop :=
  (∀ r ∈ new, r.id = id.rule → r.off = true → c.wants r.severity = true) ∧
    ((∀ r ∈ new, r.id ≠ id.rule) → ∀ i, e.instances.get? id = some i → c.wants (Engine.lostRule old i).severity = true)

/-- Each alert that the channel was told of and that ends in the call has a rule of a severity the channel wants. -/
def EndsWanted (c : Channel) (e : Engine) (x : Engine.Call) : Prop :=
  ∀ id, Awaits c e.told id → match x.op with
    | .evaluate node v => id.node = node.id → ∀ r ∈ e.rules, r.id = id.rule →
        r.endedByPush node v (seenRunning (e.runningOf node.id) v) id.sub = true → c.wants r.severity = true
    | .check nodes => ∀ n ∈ nodes, id.node = n.id → ∀ r ∈ e.rules, r.id = id.rule → r.endedByCheck n x.time = true →
        c.wants r.severity = true
    | .forget node => id.node = node → ∀ r ∈ e.rules, r.id = id.rule → c.wants r.severity = true
    | .setRules saved => PrunedWanted c e e.rules (buildRules saved) id
    | .restart saved => PrunedWanted c e [] (buildRules saved) id
    | .muteRule _ _ | .muteNode _ _ => True

/-- With the values of the rule's group in the push. -/
private theorem Rule.endedByPush_group {rule r : Rule} {node : Node} {v : View} {run : List JsString}
    {vals : List SubValue} (hr : forNode rule node = some r) (hv : valuesOf r.metric v run = some vals) (sub : JsString) :
    rule.endedByPush node v run sub = (!((Engine.watched r vals).map SubValue.sub).contains sub ||
      (Engine.watched r vals).any fun x => x.sub == sub && r.isOver (some x.value)) := by
  have hm : r.metric ≠ .offline := by
    intro hoff
    rw [hoff] at hv
    cases hv
  rw [endedByPush, hr]
  dsimp only
  rw [if_neg hm, hv]

/-! ### What every call keeps -/

/-- The channel wants the end of each alert whose start it wanted. -/
structure Answers (c : Channel) (e : Engine) : Prop where
  once : (e.rules.map Rule.id).Nodup
  answered : Answered c e.told

namespace Answers

variable {e : Engine} {t : ℤ}

/-- Within a call that began at `e`: an alert awaited now was awaited then, or its rule is of a severity that the
channel wants. -/
structure Within (c : Channel) (e e₁ : Engine) : Prop where
  rules : e₁.rules = e.rules
  answered : Answered c e₁.told
  awaited : ∀ id, Awaits c e₁.told id → Awaits c e.told id ∨ ∀ r ∈ e.rules, r.id = id.rule → c.wants r.severity = true

private theorem rule_eq {rules : List Rule} (h : (rules.map Rule.id).Nodup) {r r' : Rule} (hr : r ∈ rules)
    (hr' : r' ∈ rules) (hid : r.id = r'.id) : r = r' := List.inj_on_of_nodup_map h hr hr' hid

/-- An act under a rule in force, of a severity that the channel wants if the act ends an alert awaited. -/
theorem Within.act (honce : (e.rules.map Rule.id).Nodup) {e₁ : Engine} (h : Within c e e₁)
    {allowed : Engine → Act → Prop} (hlive : OnLive allowed) {a : Act} (ha : allowed e₁ a) {rule : Rule}
    (hrule : rule ∈ e.rules) (hid : rule.id = a.ident.rule) (hs : a.severity = rule.severity)
    (hends : a.Ends → Awaits c e.told a.ident → c.wants rule.severity = true) : Within c e (e₁.act t a) := by
  obtain ⟨es, htold, hes, hover⟩ := Engine.told_act hlive ha t
  have hrules := Acts.rules_act hlive ha (t := t)
  refine ⟨hrules.trans h.rules, ?_, fun id hawaits => ?_⟩
  · rw [htold]
    refine h.answered.append hes fun hend hawaits => ?_
    rw [hs]
    rcases h.awaited _ hawaits with hbefore | hwants
    · exact hends (hover hend) hbefore
    · exact hwants rule hrule hid
  · rw [htold] at hawaits
    rcases hawaits.of_append hes with hbefore | ⟨rfl, hwants⟩
    · exact h.awaited id hbefore
    · refine Or.inr fun r hr hrid => ?_
      rw [rule_eq honce hr hrule (hrid.trans hid.symm), ← hs]
      exact hwants

/-- An act that tells nothing. -/
theorem quiet (h : Answers c e) {e' : Engine} (hr : e'.rules = e.rules) (hn : e'.notes = e.notes) : Answers c e' := by
  have htold : e'.told = e.told := by rw [Engine.told, hn, ← Engine.told]
  exact ⟨hr ▸ h.once, htold ▸ h.answered⟩

private theorem acts (h : Answers c e) {allowed : Engine → Act → Prop} {e₀ e' : Engine} (hr : e₀.rules = e.rules)
    (hn : e₀.notes = e.notes) (hact : ∀ e₁ a, Within c e e₁ → allowed e₁ a → Within c e (e₁.act t a))
    (hacts : Acts allowed t e₀ e') : Answers c e' := by
  have htold : e₀.told = e.told := by rw [Engine.told, hn, ← Engine.told]
  have hstart : Within c e e₀ := ⟨hr, htold ▸ h.answered, fun _ h => Or.inl (htold ▸ h)⟩
  have hend := hacts.invariant (I := Within c e) hact hstart
  exact ⟨hend.rules ▸ h.once, hend.answered⟩

theorem evaluate (h : Answers c e) (node : Node) (v : View) (hwanted : EndsWanted c e ⟨t, .evaluate node v⟩) :
    Answers c (e.evaluate node v t) := by
  have hrules : (e.see node.id v).rules = e.rules := by
    unfold Engine.see
    split <;> rfl
  have hnotes : (e.see node.id v).notes = e.notes := by
    unfold Engine.see
    split <;> rfl
  have hlive := evaluateAct_onLive e.rules node v (seenRunning (e.runningOf node.id) v)
  refine h.acts hrules hnotes ?_ (Engine.evaluate_acts e node v t)
  intro e₁ a h₁ ha
  -- the end of an awaited alert of the node is one by the push
  have hpush : ∀ rule ∈ e.rules, rule.id = a.ident.rule → a.ident.node = node.id →
      rule.endedByPush node v (seenRunning (e.runningOf node.id) v) a.ident.sub = true →
      Awaits c e.told a.ident → c.wants rule.severity = true :=
    fun rule hrule hid hnode hended hawaits => hwanted _ hawaits hnode rule hrule hid hended
  cases ha with
  | offline rule r hrule hr hm =>
    refine h₁.act h.once hlive (.offline e₁ rule r hrule hr hm) hrule (forNode_id hr).symm (by rw [forNode_eq hr]; rfl)
      fun hover => hpush rule hrule (forNode_id hr).symm rfl ?_
    rw [Rule.endedByPush, hr]
    dsimp only
    rw [if_pos hm, show r.isOver (some 0) = true from hover]
    rfl
  | value rule r vals x hrule hr hv hx =>
    refine h₁.act h.once hlive (.value e₁ rule r vals x hrule hr hv hx) hrule (forNode_id hr).symm
      (by rw [forNode_eq hr]; rfl) fun hover => hpush rule hrule (forNode_id hr).symm rfl ?_
    have hany : (Engine.watched r vals).any (fun y => y.sub == x.sub && r.isOver (some y.value)) = true :=
      List.any_eq_true.2 ⟨x, hx, by rw [show r.isOver (some x.value) = true from hover, beq_self_eq_true]; rfl⟩
    rw [Rule.endedByPush_group hr hv]
    simp [Act.ident, hany]
  | gone rule r vals i hrule hr hv hi hir hin hsub =>
    refine h₁.act h.once hlive (.gone e₁ rule r vals i hrule hr hv hi hir hin hsub) hrule (forNode_id hr).symm
      (by rw [forNode_eq hr]; rfl) fun _ => hpush rule hrule (forNode_id hr).symm rfl ?_
    rw [Rule.endedByPush_group hr hv]
    simp [Act.ident, hsub]
  | ended rule i hrule hnone hi hir hin =>
    refine h₁.act h.once hlive (.ended e₁ rule i hrule hnone hi hir hin) hrule hir.symm rfl
      fun _ => hpush rule hrule hir.symm hin ?_
    rw [Rule.endedByPush, hnone]

theorem check (h : Answers c e) (nodes : List CheckedNode) (hwanted : EndsWanted c e ⟨t, .check nodes⟩) :
    Answers c (e.check nodes t) := by
  have hlive := checkAct_onLive e.rules nodes t
  refine h.acts rfl rfl ?_ (Engine.check_acts e nodes t)
  intro e₁ a h₁ ha
  cases ha with
  | offline n last rule r hn hlast hrule hr hpushed =>
    have hmem := List.mem_of_find?_eq_some hrule
    refine h₁.act h.once hlive (.offline e₁ n last rule r hn hlast hrule hr hpushed) hmem (forNode_id hr).symm
      (by rw [forNode_eq hr]; rfl) fun hover hawaits => hwanted _ hawaits n hn rfl rule hmem (forNode_id hr).symm ?_
    have hmetric : rule.metric = .offline := by simpa using List.find?_some hrule
    have hfilter : n.lastPush.filter (· != 0) = some last := by
      rw [hlast, Option.filter_some, if_pos (bne_iff_ne.2 hpushed)]
    rw [Rule.endedByCheck, hfilter]
    dsimp only
    rw [hr]
    dsimp only
    rw [hmetric, show r.isOver _ = true from hover]
    rfl
  | ended n rule i hn hrule hnone hi hir hin hpushed =>
    refine h₁.act h.once hlive (.ended e₁ n rule i hn hrule hnone hi hir hin hpushed) hrule hir.symm rfl
      fun _ hawaits => hwanted _ hawaits n hn hin rule hrule hir.symm ?_
    obtain ⟨last, hlast⟩ := Option.isSome_iff_exists.1 hpushed
    rw [Rule.endedByCheck, hlast]
    dsimp only
    rw [hnone]
  | again n rule r i hn hrule hr hi hir hin hs hoff =>
    exact h₁.act h.once hlive (.again e₁ n rule r i hn hrule hr hi hir hin hs hoff) hrule hir.symm
      (by rw [forNode_eq hr]; rfl) fun hover => hover.elim

theorem forgotten (h : Answers c e) (node : NodeId) (hwanted : EndsWanted c e ⟨t, .forget node⟩) :
    Answers c (e.forgotten node t) := by
  have hlive := forgetAct_onLive e.rules node
  refine h.acts rfl rfl ?_ (Engine.forgotten_acts e node t)
  intro e₁ a h₁ ha
  cases ha with
  | known r i hrule hi hin =>
    obtain ⟨hmem, hid⟩ : r ∈ e.rules ∧ r.id = i.rule :=
      ⟨List.mem_of_find?_eq_some hrule, by simpa using List.find?_some hrule⟩
    exact h₁.act h.once hlive (.known e₁ r i hrule hi hin) hmem hid rfl
      fun _ hawaits => hwanted _ hawaits hin r hmem hid
  | lost i hrule hi hin => exact ⟨h₁.rules, h₁.answered, h₁.awaited⟩

end Answers

/-! ### Edits of the rules and restarts -/

/-- What an edit of the rules or a start ends: an instance whose rule is off, or gone. -/
inductive LossAct (old rules : List Rule) : Engine → Act → Prop
  | off (e : Engine) (r : Rule) (i : Inst) : r ∈ rules → r.id = i.rule → r.off = true → e.Has i →
      LossAct old rules e (.finish i r.info true)
  | gone (e : Engine) (i : Inst) : (∀ r ∈ rules, r.id ≠ i.rule) → e.Has i →
      LossAct old rules e (.finish i (Engine.lostRule old i) true)

private theorem lossAct_onLive (old rules : List Rule) : OnLive (LossAct old rules) := by
  rintro e a (⟨_, _, _, _, _, hi⟩ | ⟨_, _, hi⟩)
  · exact hi
  · exact hi

private theorem Engine.pruned_loses (e : Engine) (old : List Rule) (t : ℤ) :
    Acts (LossAct old e.rules) t e (e.pruned old t) := by
  refine Acts.forInstances (lossAct_onLive old e.rules) rfl fun e₁ i he₁ hi => ?_
  split
  · rename_i r hr
    split
    · rename_i hoff
      obtain ⟨hmem, hid⟩ := ruleOf_eq_some hr
      exact Acts.single (LossAct.off e₁ r i (he₁ ▸ hmem) hid hoff hi)
    · exact .refl
  · rename_i hr
    refine Acts.single (LossAct.gone e₁ i (fun r hmem hid => ?_) hi)
    have := List.find?_eq_none.1 hr r (he₁ ▸ hmem)
    exact this (decide_eq_true hid)

theorem Answered.prune {e : Engine} (h : Answered c e.told) {old : List Rule} (honce : (e.rules.map Rule.id).Nodup)
    (hwanted : ∀ id, Awaits c e.told id → PrunedWanted c e old e.rules id) (t : ℤ) : Answers c (e.prune old t) := by
  have hacts := e.pruned_loses old t
  have hlive := lossAct_onLive old e.rules
  have hinv : (e.pruned old t).rules = e.rules ∧ Answered c (e.pruned old t).told ∧
      (∀ id, Awaits c (e.pruned old t).told id → Awaits c e.told id) ∧ ∀ i, (e.pruned old t).Has i → e.Has i := by
    refine hacts.invariant (I := fun e₁ => e₁.rules = e.rules ∧ Answered c e₁.told ∧
      (∀ id, Awaits c e₁.told id → Awaits c e.told id) ∧ ∀ i, e₁.Has i → e.Has i) ?_ ⟨rfl, h, fun _ h => h, fun _ h => h⟩
    rintro e₁ a ⟨hrules, hanswered, hawaits, hhas⟩ ha
    have hsevere : Awaits c e₁.told a.ident → c.wants a.severity = true := by
      intro hid
      obtain ⟨hoff, hgone⟩ := hwanted a.ident (hawaits _ hid)
      cases ha with
      | off r i hr hrid hroff hi => exact hoff r hr hrid hroff
      | gone i hnone hi => exact hgone hnone i (hhas i hi)
    obtain ⟨es, htold, hes, -⟩ := Engine.told_act hlive ha t
    refine ⟨(Acts.rules_act hlive ha).trans hrules, ?_, fun id hid => hawaits id ?_, fun j hj => hhas j ?_⟩
    · rw [htold]
      exact hanswered.append hes fun _ => hsevere
    · have hkinds : ∃ es, (e₁.act t a).told = e₁.told ++ es ∧ ∀ ev ∈ es, ev.kind = .resolved := by
        cases ha <;> exact Engine.told_finish _ _ _ _ _
      obtain ⟨es', htold', hes'⟩ := hkinds
      exact Awaits.of_resolved (htold' ▸ hid) hes'
    · cases ha <;> exact (Engine.has_finish hj).1
  obtain ⟨hrules, hanswered, -⟩ := hinv
  exact Answers.quiet (e := e.pruned old t) ⟨hrules ▸ honce, hanswered⟩ rfl rfl

/-! ### The engine and the notifier together -/

/-- The engine, and the notifier that its events go to. -/
structure Alerting where
  engine : Engine
  notifier : Notifier

inductive AlertingOp
  | engine (op : Engine.EngineOp)
  | tick
  | config (channels : List Channel) (quiet : Option Quiet) (digestAt : ℕ)

/-- A step at a time of the clock. -/
structure AlertingStep where
  time : ℤ
  op : AlertingOp

namespace Alerting

def step (loc : Locale) (s : Alerting) (x : AlertingStep) : Alerting :=
  match x.op with
  | .engine op =>
    let e := s.engine.call ⟨x.time, op⟩
    ⟨e, (e.told.drop s.engine.told.length).foldl (fun n ev => n.onEvent loc ev x.time) s.notifier⟩
  | .tick => { s with notifier := s.notifier.tick loc x.time }
  | .config channels quiet digestAt =>
    { s with notifier := { s.notifier with channels := channels, quiet := quiet, digestAt := digestAt } }

/-- A step outside quiet hours that keeps the channel as it is, with rules that are each there once, and that ends only
alerts the channel wants the end of, among those it was told of. -/
def Ordinary (loc : Locale) (c : Channel) (s : Alerting) (x : AlertingStep) : Prop :=
  match x.op with
  | .engine op => s.notifier.inQuiet loc x.time = false ∧ Engine.Call.Once ⟨x.time, op⟩ ∧ EndsWanted c s.engine ⟨x.time, op⟩
  | .tick => True
  | .config channels _ _ => c ∈ channels ∧ (channels.map Channel.id).Nodup

end Alerting

theorem Answers.call {e : Engine} (h : Answers c e) {x : Engine.Call} (honce : x.Once) (hwanted : EndsWanted c e x) :
    Answers c (e.call x) := by
  obtain ⟨t, op⟩ := x
  cases op with
  | evaluate node v => exact h.evaluate node v hwanted
  | check nodes => exact h.check nodes hwanted
  | muteRule id til => exact h.quiet rfl rfl
  | muteNode id til => exact h.quiet rfl rfl
  | setRules saved =>
    exact Answered.prune (e := { e with rules := buildRules saved }) h.answered (nodup_buildRules honce) hwanted t
  | forget node => exact (h.forgotten node hwanted).quiet rfl rfl
  | restart saved =>
    refine Answered.prune (e := { e with rules := buildRules saved, instances := e.instances.saved }) h.answered
      (nodup_buildRules honce) (fun id hid => ⟨(hwanted id hid).1, fun hnone i hi => ?_⟩) t
    -- an instance is saved without its value only
    have hi : e.instances.saved.get? id = some i := hi
    rw [Instances.get?_saved, Option.map_eq_some_iff] at hi
    obtain ⟨j, hj, rfl⟩ := hi
    exact (hwanted id hid).2 hnone j hj

namespace Engine

private theorem told_of_notes {e e' : Engine} {ns : List Note} (h : e'.notes = e.notes ++ ns) :
    ∃ es, e'.told = e.told ++ es :=
  ⟨_, by rw [told, h, List.filterMap_append, told]⟩

/-- A call adds to what was told. -/
private theorem told_call (e : Engine) (x : Call) : ∃ es, (e.call x).told = e.told ++ es := by
  obtain ⟨t, op⟩ := x
  have hprune : ∀ (e₁ : Engine) old, e₁.notes = e.notes → ∃ es, (e₁.prune old t).told = e.told ++ es := by
    intro e₁ old hnotes
    obtain ⟨ns, hns, -⟩ := (e₁.pruned_loses old t).notes (lossAct_onLive old e₁.rules)
    have hadded : (e₁.prune old t).notes = e.notes ++ ns := by
      rw [← hnotes, ← hns]
      rfl
    exact told_of_notes hadded
  cases op with
  | evaluate node v =>
    obtain ⟨ns, hns, -⟩ := (e.evaluate_acts node v t).notes (evaluateAct_onLive _ _ _ _)
    have hsee : (e.see node.id v).notes = e.notes := by
      unfold see
      split <;> rfl
    exact told_of_notes (hns.trans (by rw [hsee]))
  | check nodes =>
    obtain ⟨ns, hns, -⟩ := (e.check_acts nodes t).notes (checkAct_onLive _ _ _)
    exact told_of_notes hns
  | muteRule id til => exact ⟨[], (List.append_nil _).symm⟩
  | muteNode id til => exact ⟨[], (List.append_nil _).symm⟩
  | setRules saved => exact hprune _ _ rfl
  | forget node =>
    obtain ⟨ns, hns, -⟩ := (e.forgotten_acts node t).notes (forgetAct_onLive _ _)
    have hadded : (e.forget node t).notes = e.notes ++ ns := hns
    exact told_of_notes hadded
  | restart saved => exact hprune _ _ rfl

end Engine

/-! ### Rounds, event by event -/

/-- After a firing told, its alert is told again and again, until it is told as resolved. -/
private theorem after_firing {id : Ident} {es : List Event} {l : ℤ} {p : Option ℤ}
    (h : Rounds.read Daily (some l) ((es.filter fun ev => ev.ident = id).map fun ev => (ev.kind.mark, ev.time)) = some p) :
    (∃ mid r rest, es = mid ++ r :: rest ∧ (∀ ev ∈ mid, ev.ident = id → ev.kind = .repeated) ∧ r.ident = id ∧
        r.kind = .resolved) ∨
      (∀ ev ∈ es, ev.ident = id → ev.kind = .repeated) ∧ p.isSome = true := by
  induction es generalizing l with
  | nil =>
    obtain rfl := Option.some.inj h
    exact Or.inr ⟨by simp, rfl⟩
  | cons e es ih =>
    by_cases hid : e.ident = id
    · rw [List.filter_cons, if_pos (decide_eq_true hid), List.map_cons, ← List.singleton_append, Rounds.read_append,
        Option.bind_eq_some_iff] at h
      obtain ⟨q, hq, hrest⟩ := h
      cases hk : e.kind with
      | firing =>
        rw [hk] at hq
        cases hq
      | repeated =>
        have hq : Rounds.next Daily (some l) (.again, e.time) = some q := by
          rw [hk] at hq
          rw [← List.nil_append [(Kind.repeated.mark, e.time)], Rounds.read_snoc, Rounds.read_nil, Option.bind_some] at hq
          exact hq
        rw [Rounds.next_again] at hq
        split at hq
        · obtain rfl := Option.some.inj hq
          rcases ih hrest with ⟨mid, r, rest, rfl, hmid, hr⟩ | ⟨hall, hp⟩
          · refine Or.inl ⟨e :: mid, r, rest, rfl, fun ev hev hevid => ?_, hr⟩
            rcases List.mem_cons.1 hev with rfl | hev
            · exact hk
            · exact hmid ev hev hevid
          · refine Or.inr ⟨fun ev hev hevid => ?_, hp⟩
            rcases List.mem_cons.1 hev with rfl | hev
            · exact hk
            · exact hall ev hev hevid
        · cases hq
      | resolved => exact Or.inl ⟨[], e, es, rfl, by simp, hid, hk⟩
    · rw [List.filter_cons, if_neg (by simpa using hid)] at h
      rcases ih h with ⟨mid, r, rest, rfl, hmid, hr⟩ | ⟨hall, hp⟩
      · refine Or.inl ⟨e :: mid, r, rest, rfl, fun ev hev hevid => ?_, hr⟩
        rcases List.mem_cons.1 hev with rfl | hev
        · exact absurd hevid hid
        · exact hmid ev hev hevid
      · refine Or.inr ⟨fun ev hev hevid => ?_, hp⟩
        rcases List.mem_cons.1 hev with rfl | hev
        · exact absurd hevid hid
        · exact hall ev hev hevid

/-- Repeats leave the alert under way as it is. -/
private theorem startOf_repeats {es mid : List Event} {f : Event} (h : startOf es id = some f)
    (hmid : ∀ ev ∈ mid, ev.ident = id → ev.kind = .repeated) : startOf (es ++ mid) id = some f := by
  induction mid using List.reverseRecOn with
  | nil => rwa [List.append_nil]
  | append_singleton mid e ih =>
    have h' := ih fun ev hev => hmid ev (List.mem_append_left _ hev)
    rw [← List.append_assoc, startOf_snoc, follow, h']
    split
    · rename_i hid
      rw [hmid e (by simp) hid]
    · rfl

namespace Alerting

/-- What a run keeps: what the channel was given is what it wants of what was told. -/
structure Hears (c : Channel) (s : Alerting) : Prop where
  answers : Answers c s.engine
  tells : Tells s.engine
  has : s.notifier.Has c
  given : s.notifier.given c = s.engine.told.filter fun ev => c.wants ev.severity

theorem Hears.step {loc : Locale} {s : Alerting} (h : s.Hears c) (hon : c.on = true) {x : AlertingStep}
    (hx : s.Ordinary loc c x) : (s.step loc x).Hears c := by
  obtain ⟨t, op⟩ := x
  cases op with
  | engine op =>
    obtain ⟨hquiet, honce, hwanted⟩ := hx
    obtain ⟨es, htold⟩ := s.engine.told_call ⟨t, op⟩
    have hnew : (s.engine.call ⟨t, op⟩).told.drop s.engine.told.length = es := by
      rw [htold, List.drop_left]
    obtain ⟨hgiven, hchannels⟩ := Notifier.given_onEvents h.has hon es hquiet
    unfold Alerting.step
    dsimp only
    rw [hnew]
    refine ⟨h.answers.call honce hwanted, h.tells.call _, ⟨hchannels ▸ h.has.mem, hchannels ▸ h.has.nodup⟩, ?_⟩
    rw [hgiven, h.given, htold, List.filter_append]
  | tick =>
    have hticked := @Notifier.given_tick loc _ _ h.has t
    obtain ⟨hgiven, hchannels⟩ := hticked
    exact ⟨h.answers, h.tells, ⟨hchannels ▸ h.has.mem, hchannels ▸ h.has.nodup⟩, hgiven.trans h.given⟩
  | config channels quiet digestAt => exact ⟨h.answers, h.tells, ⟨hx.1, hx.2⟩, h.given⟩

/-- In every run of the engine and the notifier outside quiet hours, with a channel that stays configured and on and is
unchanged: when the rule of each alert that ends, of those the channel was told of, has a severity the channel wants by
then, each firing message it was given is followed by the resolved message of the same alert, or the alert still
fires. -/
theorem resolved_given_too (loc : Locale) (c : Channel) (hon : c.on = true) (saved : List SavedRule)
    (hsaved : Once saved) (n : Notifier) (hn : n.Has c) (hqueued : n.queued = []) (steps : List AlertingStep)
    (hsteps : Runs.Meets (step loc) (Ordinary loc c) ⟨Engine.create (buildRules saved), n⟩ steps) :
    let s := Runs.run (step loc) ⟨Engine.create (buildRules saved), n⟩ steps
    s.notifier.given c = s.engine.told.filter (fun ev => c.wants ev.severity) ∧
      ∀ pre f post, s.engine.told = pre ++ f :: post → f.kind = .firing → f ∈ s.notifier.given c →
        (∃ mid r rest, post = mid ++ r :: rest ∧ (∀ ev ∈ mid, ev.ident = f.ident → ev.kind = .repeated) ∧
            r.ident = f.ident ∧ r.kind = .resolved ∧ r ∈ s.notifier.given c) ∨
          (∀ ev ∈ post, ev.ident = f.ident → ev.kind = .repeated) ∧
            ∃ i, s.engine.instances.get? f.ident = some i ∧ i.state = .firing ∧ i.notified = true := by
  intro s
  have hstart : Hears c ⟨Engine.create (buildRules saved), n⟩ := by
    refine ⟨⟨nodup_buildRules hsaved, fun pre r post h => ?_⟩, Tells.create saved, hn, ?_⟩
    · exact absurd h.symm (List.append_ne_nil_of_right_ne_nil pre (List.cons_ne_nil r post))
    · rw [Notifier.given, hqueued]
      rfl
  have h : s.Hears c := hsteps.invariant (I := Hears c) (fun _ _ hs hok => hs.step hon hok) hstart
  refine ⟨h.given, fun pre f post htold hf hgiven => ?_⟩
  rw [h.given, List.mem_filter] at hgiven
  -- the rounds of the alert's events
  obtain ⟨p, hread, hagree⟩ := h.tells.reads f.ident
  rw [Engine.toldAbout, htold, List.filter_append, List.map_append, Rounds.read_append, Option.bind_eq_some_iff] at hread
  obtain ⟨q, -, hq⟩ := hread
  rw [List.filter_cons, if_pos (decide_eq_true rfl), List.map_cons, ← List.singleton_append, Rounds.read_append,
    Option.bind_eq_some_iff, hf] at hq
  obtain ⟨q', hq', hpost⟩ := hq
  obtain ⟨l, rfl⟩ : ∃ l, q' = some l := by
    cases q with
    | none => exact ⟨f.time, (Option.some.inj hq').symm⟩
    | some l => cases hq'
  have hstarted : startOf (pre ++ [f]) f.ident = some f := by
    rw [startOf_snoc, follow, if_pos rfl, hf]
  rcases after_firing hpost with ⟨mid, r, rest, rfl, hmid, hid, hk⟩ | ⟨hall, hp⟩
  · refine Or.inl ⟨mid, r, rest, rfl, hmid, hid, hk, ?_⟩
    have hsplit : s.engine.told = (pre ++ [f] ++ mid) ++ r :: rest := by
      rw [htold, List.append_assoc, List.append_assoc]
      rfl
    rw [h.given, List.mem_filter]
    refine ⟨hsplit ▸ List.mem_append_right _ List.mem_cons_self, ?_⟩
    exact h.answers.answered _ r rest hsplit hk ⟨f, hid ▸ startOf_repeats hstarted hmid, hgiven.2⟩
  · refine Or.inr ⟨hall, ?_⟩
    obtain ⟨l', rfl⟩ := Option.isSome_iff_exists.1 hp
    generalize s.engine.instances.get? f.ident = oi at hagree
    cases hagree with
    | inside i l hs hn hl => exact ⟨i, rfl, hs, hn⟩

/-! ### A busy processor -/

private def anyTime : Locale where
  minutes t := (t / 60000 % 1440).toNat
  day _ := []
  number _ := []

private def ntfy : Channel := ⟨js "ch_n", .warning, true, true⟩

private def toNtfy : Notifier := ⟨[ntfy], none, 420, [], [], none, []⟩

private theorem isNodeId_busy : isNodeId (js "aaaaaaaaaaaa") = true := by decide

private def busyNode : Node := ⟨⟨js "aaaaaaaaaaaa", isNodeId_busy⟩, js "nas", []⟩

private def busyFor (minute : ℤ) (cpu : ℚ) : AlertingStep :=
  ⟨minute * MIN, .engine (.evaluate busyNode { View.bare 60 with cpu := some ⟨some cpu, none, none⟩ })⟩

private def toInfo : SavedRule := .change .cpu ⟨none, none, none, some .info, none, none⟩

/-- The processor is busy, its rule is made info and a warning again, and the processor is idle. -/
private def busy : List AlertingStep :=
  [busyFor 0 99, busyFor 15 99, ⟨15 * MIN, .engine (.setRules [toInfo])⟩, ⟨15 * MIN, .engine (.setRules [])⟩,
    busyFor 16 5]

private def afterSteps (k : ℕ) : Alerting :=
  Runs.run (step anyTime) ⟨Engine.create (buildRules []), toNtfy⟩ (busy.take k)

private theorem endsWanted_untold {e : Engine} (h : e.told = []) (x : Engine.Call) : EndsWanted ntfy e x := by
  rintro id ⟨f, hf, -⟩
  rw [h] at hf
  cases hf

/-- When one event was told, an alert awaited is the one it is about. -/
private theorem rule_of_awaits {e : Engine} (h : e.told.map Event.ident = [⟨.default .cpu, busyNode.id, []⟩])
    {id : Ident} (hid : Awaits ntfy e.told id) : id.rule = .default .cpu := by
  obtain ⟨ev, hev, hident⟩ := List.map_eq_singleton_iff.1 h
  obtain ⟨f, hf, -⟩ := hid
  rw [hev, startOf, List.foldl_cons, List.foldl_nil, follow] at hf
  split at hf
  · rename_i heq
    rw [← heq, hident]
  · cases hf

/-- An edit of the severity ends no alert. -/
private theorem endsWanted_edit {e : Engine} (h : e.told.map Event.ident = [⟨.default .cpu, busyNode.id, []⟩]) {t : ℤ}
    {saved : List SavedRule} (hon : ∀ r ∈ buildRules saved, r.id = .default .cpu → r.off = false)
    (hmem : ∃ r ∈ buildRules saved, r.id = .default .cpu) : EndsWanted ntfy e ⟨t, .setRules saved⟩ := by
  intro id hawaits
  have hid := rule_of_awaits h hawaits
  refine ⟨fun r hr hrid hoff => ?_, fun hnone => ?_⟩
  · rw [hon r hr (hrid.trans hid)] at hoff
    cases hoff
  · obtain ⟨r, hr, hrid⟩ := hmem
    exact absurd (hrid.trans hid.symm) (hnone r hr)

/-- The rule is a warning when the processor is idle. -/
private theorem endsWanted_idle : EndsWanted ntfy (afterSteps 4).engine ⟨(busyFor 16 5).time, .evaluate busyNode
    { View.bare 60 with cpu := some ⟨some 5, none, none⟩ }⟩ := by
  intro id hawaits _ r hr hrid _
  have htold : (afterSteps 4).engine.told.map Event.ident = [⟨.default .cpu, busyNode.id, []⟩] := by decide +kernel
  have hall : ∀ r ∈ (afterSteps 4).engine.rules, r.id = .default .cpu → ntfy.wants r.severity = true := by decide +kernel
  exact hall r hr (hrid.trans (rule_of_awaits htold hawaits))

private theorem ordinary_busy :
    Runs.Meets (step anyTime) (Ordinary anyTime ntfy) ⟨Engine.create (buildRules []), toNtfy⟩ busy := by
  have h₀ : (afterSteps 0).engine.told = [] := by decide +kernel
  have h₁ : (afterSteps 1).engine.told = [] := by decide +kernel
  have h₂ : (afterSteps 2).engine.told.map Event.ident = [⟨.default .cpu, busyNode.id, []⟩] := by decide +kernel
  have h₃ : (afterSteps 3).engine.told.map Event.ident = [⟨.default .cpu, busyNode.id, []⟩] := by decide +kernel
  exact ⟨⟨rfl, trivial, endsWanted_untold h₀ _⟩, ⟨rfl, trivial, endsWanted_untold h₁ _⟩,
    ⟨rfl, List.nodup_singleton _, endsWanted_edit h₂ (by decide) (by decide)⟩,
    ⟨rfl, List.nodup_nil, endsWanted_edit h₃ (by decide) (by decide)⟩, ⟨rfl, trivial, endsWanted_idle⟩, trivial⟩

private def afterBusy : Alerting := Runs.run (step anyTime) ⟨Engine.create (buildRules []), toNtfy⟩ busy

/-- The channel was given the firing and the resolved message. -/
theorem busy_resolved : ∃ f post, afterBusy.engine.told = f :: post ∧ f.kind = .firing ∧
    ∃ r ∈ post, r.ident = f.ident ∧ r.kind = .resolved ∧ r ∈ afterBusy.notifier.given ntfy := by
  have hkinds : afterBusy.engine.told.map Event.kind = [.firing, .resolved] := by decide +kernel
  have hgiven : afterBusy.notifier.given ntfy = afterBusy.engine.told := by decide +kernel
  have hover : afterBusy.engine.instances.list = [] := by decide +kernel
  obtain ⟨f, post, htold, hf, -⟩ := List.map_eq_cons_iff.1 hkinds
  have h := resolved_given_too anyTime ntfy rfl [] List.nodup_nil toNtfy ⟨by simp [toNtfy], by simp [toNtfy]⟩ rfl busy
    ordinary_busy
  rcases h.2 [] f post htold hf (by
      show f ∈ afterBusy.notifier.given ntfy
      rw [hgiven, htold]
      exact List.mem_cons_self) with ⟨mid, r, rest, rfl, -, hid, hk, hr⟩ | ⟨-, i, hi, -⟩
  · exact ⟨f, _, htold, hf, r, List.mem_append_right mid List.mem_cons_self, hid, hk, hr⟩
  · have hi : afterBusy.engine.instances.get? f.ident = some i := hi
    have hmem : i ∈ afterBusy.engine.instances.list := Instances.mem_list_iff.2 (Instances.ident_of_get? hi ▸ hi)
    rw [hover] at hmem
    cases hmem

/-- The rule's severity is changed to info while the alert fires: the channel is not given its end. -/
theorem end_not_given :
    let s := Runs.run (step anyTime) ⟨Engine.create (buildRules []), toNtfy⟩
      [busyFor 0 99, busyFor 15 99, ⟨15 * MIN, .engine (.setRules [toInfo])⟩, busyFor 16 5]
    s.engine.told.map Event.kind = [.firing, .resolved] ∧ (s.notifier.given ntfy).map Event.kind = [.firing] ∧
      s.engine.instances.list = [] := by
  decide +kernel

end Alerting

end Servitals
