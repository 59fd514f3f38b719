import Servitals.AlertSteps
import Servitals.Hub
import Servitals.Lib.Runs

/-!
# The offline alert over runs of the hub

A firing offline alert knows when it fired.  Either it fired since the hub's last start, its node then silent for its
limit, or before it, and no push is known since (`Silent`).  So the minute's check ends it only when the hub started
after it fired and the node's limit has not passed since: `settled` says that no told alert of a listed node is so.

In every run whose checks are settled the end of a told offline alert of a listed node is told on a push of the node
(`offline_resolved_by_push`), unless its rule ends there; without the condition it is not.
-/

namespace Servitals

/-- The identity of a node's offline alert. -/
def offlineOf (n : NodeId) : Ident := ⟨.default .offline, n, []⟩

/-! ### The offline rule on a value -/

namespace Rule.IsOffline

variable {r : Rule} (h : r.IsOffline)
include h

private theorem holds_zero : r.holds (some 0) = false := by
  simp [Rule.holds, h.op, h.threshold, Op.holds]

private theorem isOver_zero : r.isOver (some 0) = true := by
  simp [Rule.isOver, h.op, h.threshold, h.clear, Op.holds]

private theorem isOver_one : r.isOver (some 1) = false := by
  simp [Rule.isOver, h.op, h.threshold, h.clear, Op.holds]

end Rule.IsOffline

/-- A push, or a node that is not silent, leaves no offline alert. -/
private theorem Judged.eq_none_of_zero {r : Rule} (hr : r.IsOffline) {t : ℤ} {oi oi' : Option Inst} {ns : List Note}
    (h : Judged r (some 0) t oi ns oi') : oi' = none := by
  cases h with
  | absent => rfl
  | lapses => rfl
  | waits _ _ _ hv => rw [hr.holds_zero] at hv; cases hv
  | fires _ _ _ _ hv => rw [hr.holds_zero] at hv; cases hv
  | ends => rfl
  | stays _ _ _ _ _ hover => rw [hr.isOver_zero] at hover; cases hover

/-- A firing instance after a judgement fired then, its value meeting the rule, or was firing before. -/
theorem Judged.firedAt {r : Rule} {value : Option ℚ} {t : ℤ} {oi oi' : Option Inst} {ns : List Note}
    (h : Judged r value t oi ns oi') {i : Inst} (hi : oi' = some i) (hs : i.state = .firing) :
    (i.firedAt = some t ∧ r.holds value = true) ∨ ∃ j, oi = some j ∧ j.state = .firing ∧ j.firedAt = i.firedAt := by
  cases h with
  | absent => cases hi
  | lapses => cases hi
  | waits _ _ _ _ hp => cases hi; exact absurd (hs.symm.trans hp) (by decide)
  | fires _ _ _ _ hv _ hf => cases hi; exact Or.inl ⟨hf, hv⟩
  | ends => cases hi
  | stays j _ _ _ hj _ hret => cases hi; cases hret <;> exact Or.inr ⟨j, rfl, hj, rfl⟩

/-- The end of a firing alert that a judgement logs. -/
theorem Judged.resolved {r : Rule} {value : Option ℚ} {t : ℤ} {oi oi' : Option Inst} {ns : List Note}
    (h : Judged r value t oi ns oi') {n : Note} (hn : n ∈ ns) (hk : n.event.kind = .resolved) :
    ∃ i, oi = some i ∧ i.state = .firing ∧ r.isOver value = true ∧ n.quiet.isNone = i.notified := by
  cases h with
  | absent => cases hn
  | lapses => cases hn
  | waits => cases hn
  | fires _ _ _ _ _ _ _ _ hk' => cases List.mem_singleton.1 hn; rw [hk'] at hk; cases hk
  | ends i _ hs hover _ hq => cases List.mem_singleton.1 hn; exact ⟨i, rfl, hs, hover, hq⟩
  | stays i _ _ _ _ _ hret =>
    cases hret with
    | kept => cases hn
    | late _ _ hk' => cases List.mem_singleton.1 hn; rw [hk'] at hk; cases hk
    | again _ _ _ _ _ hk' => cases List.mem_singleton.1 hn; rw [hk'] at hk; cases hk

/-! ### When the offline alerts fired -/

/-- Every firing offline alert fired at a time `P` holds of. -/
def Fired (P : NodeId → ℤ → Prop) (e : Engine) : Prop :=
  ∀ n i, e.instances.get? (offlineOf n) = some i → i.state = .firing → ∃ f, i.firedAt = some f ∧ P n f

namespace Fired

variable {P : NodeId → ℤ → Prop} {e e' : Engine} {t : ℤ}

theorem mono {Q : NodeId → ℤ → Prop} (h : Fired P e) (hPQ : ∀ n f, P n f → Q n f) : Fired Q e := by
  intro n i hi hs
  obtain ⟨f, hf, hp⟩ := h n i hi hs
  exact ⟨f, hf, hPQ n f hp⟩

theorem act (h : Fired P e) {allowed : Engine → Act → Prop} (hlive : OnLive allowed) {a : Act} (ha : allowed e a)
    (hjudged : ∀ r node sub value, a = .judged r node sub value → r.id = .default .offline →
      r.holds value = true → P node.id t) : Fired P (e.act t a) := by
  intro n i hi hs
  by_cases hid : offlineOf n = a.ident
  · cases a with
    | judged r node sub value =>
      obtain ⟨ns, -, hj⟩ := Engine.judged_touches e r node sub value t
      rw [hid] at hi
      rcases hj.firedAt hi hs with ⟨hf, hv⟩ | ⟨j, hj, hjs, hjf⟩
      · have hnode : n = node.id := congrArg Ident.node hid
        exact ⟨t, hf, hnode ▸ hjudged r node sub value rfl (congrArg Ident.rule hid).symm hv⟩
      · obtain ⟨f, hf, hp⟩ := h n j (by rw [hid]; exact hj) hjs
        exact ⟨f, hjf ▸ hf, hp⟩
    | retell i₀ r =>
      obtain ⟨ns, i', -, hget, hret⟩ := Engine.retell_touches e (hlive e _ ha) r t
      rw [hid] at hi
      obtain rfl := Option.some.inj (hget.symm.trans hi)
      have hsame : i'.state = i₀.state ∧ i'.firedAt = i₀.firedAt := by cases hret <;> exact ⟨rfl, rfl⟩
      obtain ⟨f, hf, hp⟩ := h n i₀ (by rw [hid]; exact hlive e _ ha) (hsame.1 ▸ hs)
      exact ⟨f, hsame.2 ▸ hf, hp⟩
    | finish i₀ r b =>
      rw [hid, show Act.ident (.finish i₀ r b) = i₀.ident from rfl, Engine.act, Engine.get?_finish_self] at hi
      cases hi
    | drop i₀ =>
      rw [hid, show Act.ident (.drop i₀) = i₀.ident from rfl, Engine.act, Engine.get?_drop_self] at hi
      cases hi
  · obtain ⟨ns, htouch⟩ := Engine.act_touches hlive ha (t := t)
    rw [htouch.others _ hid] at hi
    exact h n i hi hs

/-- Acts none of which judges an offline alert leave it as it fired. -/
theorem acts (h : Fired P e) {allowed : Engine → Act → Prop} (hlive : OnLive allowed)
    (hjudged : ∀ e₁ r node sub value, allowed e₁ (.judged r node sub value) → r.id = .default .offline →
      r.holds value = true → P node.id t) (hacts : Acts allowed t e e') : Fired P e' :=
  hacts.invariant (fun e₁ _ h₁ ha => h₁.act hlive ha fun r node sub value hj hid hv =>
    hjudged e₁ r node sub value (hj ▸ ha) hid hv) h

theorem congr (h : Fired P e) (hi : e'.instances = e.instances) : Fired P e' := by
  unfold Fired
  rw [hi]
  exact h

theorem prune (h : Fired P e) (old : List Rule) : Fired P (e.prune old t) :=
  (h.acts (pruneAct_onLive _) (fun _ _ _ _ _ ha => (by cases ha)) (Engine.pruned_acts e old t)).congr rfl

theorem saved (h : Fired P e) (rules : List Rule) :
    Fired P { e with rules := rules, instances := e.instances.saved } := by
  intro n i hi hs
  rw [Instances.get?_saved, Option.map_eq_some_iff] at hi
  obtain ⟨j, hj, rfl⟩ := hi
  exact h n j hj hs

end Fired

/-! ### What a push does to the offline alert -/

/-- The engine's rules are built from accepted files. -/
def FromFile (e : Engine) : Prop :=
  ∃ saved : List SavedRule, saved.all SavedRule.fitsOffline = true ∧ e.rules = buildRules saved

private theorem FromFile.isOffline {e : Engine} (h : FromFile e) {r : Rule} (hr : r ∈ e.rules)
    (hid : r.id = .default .offline) :
    r.IsOffline := by
  obtain ⟨saved, hsaved, hrules⟩ := h
  obtain ⟨rest, hcons, hrest⟩ := buildRules_eq_cons saved
  rw [hrules, hcons] at hr
  rcases List.mem_cons.1 hr with rfl | hr
  · exact isOffline_offlineRule hsaved
  · exact absurd hid (hrest r hr)

/-- The rule that a check judges the offline alerts under. -/
theorem FromFile.ruleOf {e : Engine} (h : FromFile e) :
    ∃ r, e.ruleOf (.default .offline) = some r ∧ (e.rules.find? fun r => r.metric = .offline) = some r ∧ r.IsOffline := by
  obtain ⟨saved, hsaved, hrules⟩ := h
  obtain ⟨rest, hcons, -⟩ := buildRules_eq_cons saved
  have hoff := isOffline_offlineRule hsaved
  refine ⟨offlineRule saved, ?_, ?_, hoff⟩
  · rw [Engine.ruleOf, hrules, hcons, List.find?_cons_of_pos (by simp [hoff.id])]
  · rw [hrules, hcons, List.find?_cons_of_pos (by simp [hoff.metric])]

/-- The rule a push or a check judges an offline alert under. -/
theorem FromFile.inForce {e : Engine} (h : FromFile e) {rule r : Rule} {node : Node} (hrule : rule ∈ e.rules)
    (hr : forNode rule node = some r) (hid : r.id = .default .offline) : r.IsOffline := by
  have hoff := h.isOffline hrule ((forNode_id hr).symm.trans hid)
  rw [hoff.forNode hr]
  exact hoff

theorem Fired.evaluate {P : NodeId → ℤ → Prop} {e : Engine} (h : Fired P e) (he : FromFile e) (node : Node) (v : View)
    (t : ℤ) : Fired P (e.evaluate node v t) := by
  have hsee : Fired P (e.see node.id v) := by
    refine h.congr ?_
    unfold Engine.see
    split <;> rfl
  refine hsee.acts (evaluateAct_onLive _ _ _ _) ?_ (Engine.evaluate_acts e node v t)
  intro e₁ r node' sub value ha hid hv
  cases ha with
  | offline rule _ hrule hr =>
    rw [(he.inForce hrule hr hid).holds_zero] at hv
    cases hv
  | value rule _ vals x hrule hr hvals =>
    rw [(he.inForce hrule hr hid).metric] at hvals
    cases hvals
  | gone rule _ vals i hrule hr hvals =>
    rw [(he.inForce hrule hr hid).metric] at hvals
    cases hvals

/-- After a push its node has no offline alert. -/
private theorem get?_offlineOf_evaluate {e : Engine} (he : FromFile e) (node : Node) (v : View) (t : ℤ) :
    (e.evaluate node v t).instances.get? (offlineOf node.id) = none := by
  obtain ⟨saved, hsaved, hrules⟩ := he
  obtain ⟨rest, hcons, hrest⟩ := buildRules_eq_cons saved
  have hoff := isOffline_offlineRule hsaved
  unfold Engine.evaluate
  rw [hrules, hcons, List.foldl_cons]
  -- the offline rule comes first; no other judges its alert
  refine ((Engine.evaluateRules_acts _ rest node v _ t).others (evaluateAct_onLive _ _ _ _) ?_).trans ?_
  · intro e₁ a ha hid
    have hne : ∀ rule ∈ rest, ∀ r, forNode rule node = some r → r.id ≠ .default .offline := fun rule hrule r hr =>
      (forNode_id hr).symm ▸ hrest rule hrule
    cases ha with
    | offline rule r hrule hr => exact hne rule hrule r hr (congrArg Ident.rule hid).symm
    | value rule r vals x hrule hr => exact hne rule hrule r hr (congrArg Ident.rule hid).symm
    | gone rule r vals i hrule hr => exact hne rule hrule r hr (congrArg Ident.rule hid).symm
    | ended rule i hrule _ _ hir => exact hrest rule hrule (hir.symm.trans (congrArg Ident.rule hid).symm)
  · generalize e.see node.id v = e₁
    unfold Engine.evaluateRule
    split
    · cases hget : (e₁.endAll (offlineRule saved) node.id t).instances.get? (offlineOf node.id) with
      | none => rfl
      | some j =>
        have hident : j.ident = offlineOf node.id := Instances.ident_of_get? hget
        have hnot := Engine.not_has_endAll e₁ (offlineRule saved) node.id t
          (show Engine.Has _ j by rw [Engine.Has, hident]; exact hget)
        exact absurd ⟨(congrArg Ident.rule hident).trans hoff.id.symm, congrArg Ident.node hident⟩ hnot
    · rename_i r hr
      obtain rfl := hoff.forNode hr
      rw [if_pos hoff.metric]
      obtain ⟨ns, -, hj⟩ := Engine.judged_touches e₁ (offlineRule saved) node [] (some 0) t
      rw [show offlineOf node.id = ⟨(offlineRule saved).id, node.id, []⟩ by rw [hoff.id]; rfl]
      exact hj.eq_none_of_zero hoff

/-- The end that `finish` logs says whether the rule ended it. -/
private theorem Engine.endedByRule_of_finish {e : Engine} {id : Ident} {i : Inst} {r : RuleInfo} {b : Bool} {t : ℤ}
    {ns : List Note} (h : Touches id ns e (e.finish i r b t)) {n : Note} (hn : n ∈ ns) : n.event.endedByRule = b := by
  obtain ⟨ns', htouch, hns⟩ := Engine.finish_touches e i r b t
  obtain rfl : ns = ns' := List.append_cancel_left (h.notes.symm.trans htouch.notes)
  rcases hns with ⟨-, rfl⟩ | ⟨-, rfl⟩
  · rw [List.mem_singleton.1 hn]
    rfl
  · cases hn

/-! ### The invariant of the hub -/

namespace Hub

/-- When an offline alert fired, against what the hub knows of its node: since the hub's start, the node silent for
its limit, or before it, without a push since. -/
def Silent (h : Hub) (n : NodeId) (f : ℤ) : Prop :=
  f ≤ h.clock ∧ ∀ r, h.latest.get? n = some r →
    (h.hubStart < f ∧ limitOf (some r.view.interval) ≤ f - max r.pushedAt h.hubStart) ∨
      (f ≤ h.hubStart ∧ r.pushedAt ≤ h.hubStart)

structure Sound (h : Hub) : Prop where
  fromFile : FromFile h.engine
  fired : Fired h.Silent h.engine
  snapshots : ∀ id r, h.snapshots.get? id = some r → r.pushedAt ≤ h.clock

/-- The rules of a step come from an accepted file. -/
def HubOp.accepted : HubOp → Bool
  | .setRules saved => saved.all SavedRule.fitsOffline
  | .restart saved => saved.all SavedRule.fitsOffline
  | _ => true

/-- A step that can happen: the clock does not go back, and rules come from accepted files. -/
def Possible (h : Hub) (s : HubStep) : Prop := h.clock ≤ s.time ∧ s.op.accepted = true

instance (h : Hub) (s : HubStep) : Decidable (h.Possible s) :=
  inferInstanceAs (Decidable (h.clock ≤ s.time ∧ s.op.accepted = true))

private theorem pos_limitOf (interval : Option ℤ) : 0 < limitOf interval := by
  unfold limitOf MIN
  omega

theorem Silent.later {h : Hub} {n : NodeId} {f t : ℤ} (hs : h.Silent n f) (ht : h.clock ≤ t) :
    Silent { h with clock := t } n f :=
  ⟨hs.1.trans ht, hs.2⟩

/-- A check fires an offline alert of a node silent for its limit. -/
private theorem silent_of_check {h : Hub} {n : Node} {last t : ℤ} {r : Rule} (hr : r.IsOffline)
    (hlast : (h.checked n).lastPush = some last)
    (hv : r.holds (some (if limitOf (h.checked n).interval ≤ t - last then 1 else 0)) = true) :
    Silent { h with clock := t } n.id t := by
  have hlimit : limitOf (h.checked n).interval ≤ t - last := by
    by_contra hlimit
    rw [if_neg hlimit, hr.holds_zero] at hv
    cases hv
  refine ⟨le_refl t, fun r' hr' => Or.inl ?_⟩
  have hrec : h.latest.get? n.id = some r' := hr'
  simp only [checked, hrec, Option.map_some, Option.some.injEq] at hlast hlimit
  subst hlast
  have := pos_limitOf (some r'.view.interval)
  exact ⟨by dsimp only; omega, hlimit⟩

private theorem fromFile_congr {e e' : Engine} (h : FromFile e) (hr : e'.rules = e.rules) : FromFile e' := by
  obtain ⟨saved, hsaved, hrules⟩ := h
  exact ⟨saved, hsaved, hr.trans hrules⟩

private theorem rules_evaluate (e : Engine) (node : Node) (v : View) (t : ℤ) :
    (e.evaluate node v t).rules = e.rules := by
  rw [(Engine.evaluate_acts e node v t).rules (evaluateAct_onLive _ _ _ _)]
  unfold Engine.see
  split <;> rfl

private theorem rules_prune (e : Engine) (old : List Rule) (t : ℤ) : (e.prune old t).rules = e.rules := by
  have hpruned : (e.pruned old t).rules = e.rules := (Engine.pruned_acts e old t).rules (pruneAct_onLive _)
  exact hpruned

private theorem rules_forget (e : Engine) (node : NodeId) (t : ℤ) : (e.forget node t).rules = e.rules := by
  have hforgotten : (e.forgotten node t).rules = e.rules := (Engine.forgotten_acts e node t).rules (forgetAct_onLive _ _)
  exact hforgotten

/-- Every possible step keeps the invariant. -/
theorem Sound.step {h : Hub} (hs : h.Sound) {s : HubStep} (hp : h.Possible s) : (h.step s).Sound := by
  obtain ⟨t, op⟩ := s
  obtain ⟨ht, hop⟩ := hp
  have hclock : Fired (Silent { h with clock := t }) h.engine := hs.fired.mono fun n f hsil => hsil.later ht
  have hsnap : ∀ id r, h.snapshots.get? id = some r → r.pushedAt ≤ t := fun id r hr => (hs.snapshots id r hr).trans ht
  cases op with
  | push id v written =>
    unfold Hub.step effect
    dsimp only
    split
    · rename_i n hn
      refine ⟨fromFile_congr hs.fromFile (rules_evaluate _ _ _ _), ?_, fun id' r hr => ?_⟩
      · intro n' i hi hfiring
        by_cases hid : n' = n.id
        · rw [hid, show n.id = (pushing n).id from rfl] at hi
          rw [show (h.onSnapshot n v written t).engine = h.engine.evaluate (pushing n) v t from rfl,
            get?_offlineOf_evaluate hs.fromFile] at hi
          cases hi
        · obtain ⟨f, hf, hsil⟩ := hclock.evaluate hs.fromFile (pushing n) v t n' i hi hfiring
          refine ⟨f, hf, hsil.1, fun r hr => hsil.2 r ?_⟩
          rwa [show (h.onSnapshot n v written t).latest = h.latest.set n.id ⟨v, t⟩ from rfl,
            OMap.get?_set_of_ne _ hid] at hr
      · cases written with
        | false => exact hsnap id' r hr
        | true =>
          rw [show (h.onSnapshot n v true t).snapshots = h.snapshots.set n.id ⟨v, t⟩ from rfl, OMap.get?_set] at hr
          split at hr
          · cases hr
            exact le_refl t
          · exact hsnap id' r hr
    · exact ⟨hs.fromFile, hclock, hsnap⟩
  | minute =>
    have hacts := Engine.check_acts h.engine (h.nodes.map h.checked) t
    refine ⟨fromFile_congr hs.fromFile (hacts.rules (checkAct_onLive _ _ _)), ?_, hsnap⟩
    refine hclock.acts (checkAct_onLive _ _ _) ?_ hacts
    intro e₁ r node sub value ha hid hv
    cases ha with
    | offline n last rule _ hn hlast hrule hr =>
      obtain ⟨n₀, -, rfl⟩ := List.mem_map.1 hn
      exact silent_of_check (hs.fromFile.inForce (List.mem_of_find?_eq_some hrule) hr hid) hlast hv
  | muteRule id til => exact ⟨hs.fromFile, hclock, hsnap⟩
  | muteNode id til => exact ⟨hs.fromFile, hclock, hsnap⟩
  | setRules saved =>
    have hrules : Fired (Silent { h with clock := t }) { h.engine with rules := buildRules saved } := hclock.congr rfl
    exact ⟨⟨saved, hop, rules_prune _ _ _⟩, hrules.prune (t := t) h.engine.rules, hsnap⟩
  | pair n =>
    unfold Hub.step effect
    dsimp only
    split
    · exact ⟨hs.fromFile, hclock, hsnap⟩
    · exact ⟨hs.fromFile, hclock, hsnap⟩
  | edit id name tags => exact ⟨hs.fromFile, hclock, hsnap⟩
  | revoke id =>
    have hacts := Engine.forgotten_acts h.engine id t
    refine ⟨fromFile_congr hs.fromFile (rules_forget _ _ _), ?_, fun id' r hr => ?_⟩
    · have hforget : Fired (Silent { h with clock := t }) (h.engine.forget id t) :=
        (hclock.acts (forgetAct_onLive _ _) (fun _ _ _ _ _ ha => (by cases ha)) hacts).congr rfl
      refine hforget.mono fun n f hsil => ⟨hsil.1, fun r hr => hsil.2 r ?_⟩
      rw [show (h.step ⟨t, .revoke id⟩).latest = h.latest.erase id from rfl, OMap.get?_erase] at hr
      split at hr
      · cases hr
      · exact hr
    · rw [show (h.step ⟨t, .revoke id⟩).snapshots = h.snapshots.erase id from rfl, OMap.get?_erase] at hr
      split at hr
      · cases hr
      · exact hsnap id' r hr
  | restart saved =>
    refine ⟨⟨saved, hop, rules_prune _ _ _⟩, ?_, hsnap⟩
    -- what fired so far fired before this start, and the snapshots are from before it
    refine ((hclock.saved _).prune _).mono fun n f hsil => ⟨hsil.1, fun r hr => Or.inr ⟨hsil.1, ?_⟩⟩
    have hr : (h.snapshots.filter _).get? n = some r := hr
    rw [OMap.get?_filter, Option.filter_eq_some_iff] at hr
    exact hsnap n r hr.1

/-! ### The minute's check -/

/-- No told offline alert of a listed node, judged at the minute's check, is from before the hub's start while the
node's limit has not passed since. -/
def settled (h : Hub) (t : ℤ) : Bool :=
  h.nodes.all fun n =>
    match h.latest.get? n.id, h.engine.instances.get? (offlineOf n.id),
      (h.engine.ruleOf (.default .offline)).bind fun r => forNode r n with
    | some r, some i, some _ => !(i.state == .firing && i.notified) || i.firedAt.any (fun f => decide (h.hubStart < f)) ||
        decide (limitOf (some r.view.interval) ≤ t - h.hubStart)
    | _, _, _ => true

/-- Is the step no check, or a settled one? -/
def settles (h : Hub) (s : HubStep) : Bool :=
  match s.op with
  | .minute => h.settled s.time
  | _ => true

/-- During a check: a node's offline alert is as it was, or gone, or the node is silent for its limit. -/
def Unjudged (h : Hub) (t : ℤ) (e : Engine) : Prop :=
  ∀ n : NodeId, e.instances.get? (offlineOf n) = h.engine.instances.get? (offlineOf n) ∨
    e.instances.get? (offlineOf n) = none ∨
      ∀ n₀ : Node, n₀.id = n → ∀ last, (h.checked n₀).lastPush = some last →
        limitOf (h.checked n₀).interval ≤ t - last

private theorem lastPush_checked {h : Hub} {n n₀ : Node} (hid : n.id = n₀.id) :
    (h.checked n).lastPush = (h.checked n₀).lastPush ∧ (h.checked n).interval = (h.checked n₀).interval := by
  unfold checked
  dsimp only
  rw [hid]
  exact ⟨rfl, rfl⟩

theorem Unjudged.act {h : Hub} (hs : h.Sound) {t : ℤ} {e : Engine} (hu : h.Unjudged t e) {a : Act}
    (ha : CheckAct h.engine.rules (h.nodes.map h.checked) t e a) : h.Unjudged t (e.act t a) := by
  intro n
  by_cases hid : offlineOf n = a.ident
  · cases ha with
    | offline n₁ last rule r hn hlast hrule hr =>
      obtain ⟨n₂, -, rfl⟩ := List.mem_map.1 hn
      have hroff := hs.fromFile.inForce (List.mem_of_find?_eq_some hrule) hr (congrArg Ident.rule hid).symm
      have hnode : n = n₂.id := congrArg Ident.node hid
      by_cases hlimit : limitOf (h.checked n₂).interval ≤ t - last
      · refine Or.inr (Or.inr fun n₀ hn₀ last' hlast' => ?_)
        obtain ⟨hl, hi⟩ := lastPush_checked (h := h) (hn₀.trans hnode)
        rw [hl] at hlast'
        obtain rfl := Option.some.inj (hlast.symm.trans hlast')
        rwa [hi]
      · refine Or.inr (Or.inl ?_)
        rw [if_neg hlimit] at hid ⊢
        obtain ⟨ns, -, hj⟩ := Engine.judged_touches e r (h.checked n₂).toNode [] (some 0) t
        rw [hid]
        exact hj.eq_none_of_zero hroff
    | ended n₁ rule i hn hrule hnone hi hir hin =>
      refine Or.inr (Or.inl ?_)
      rw [hid]
      exact Engine.get?_finish_self e i rule.info true t
    | again n₁ rule r i hn hrule hr hi hir hin hfiring hoff => exact absurd (congrArg Ident.rule hid).symm hoff
  · obtain ⟨ns, htouch⟩ := Engine.act_touches (checkAct_onLive _ _ _) ha (t := t)
    rw [htouch.others _ hid]
    exact hu n

/-- A settled check ends no told offline alert but one whose rule does not hold for its node. -/
private theorem settled_of_check {h : Hub} (hs : h.Sound) {t : ℤ} (ht : h.clock ≤ t) (hsettled : h.settled t = true)
    {e : Engine} (hu : h.Unjudged t e) {n : Node} (hn : n ∈ h.nodes) {last : ℤ}
    (hlast : (h.checked n).lastPush = some last) {r : Rule} (hrule : h.engine.ruleOf (.default .offline) = some r)
    (hr : forNode r n = some r) {i : Inst} (hi : e.instances.get? (offlineOf n.id) = some i)
    (hfiring : i.state = .firing) (hnotified : i.notified = true) : limitOf (h.checked n).interval ≤ t - last := by
  rcases hu n.id with hsame | hnone | hlimit
  · rw [hsame] at hi
    obtain ⟨f, hf, hsil⟩ := hs.fired n.id i hi hfiring
    have hcheck := List.all_eq_true.1 hsettled n hn
    cases hrec : h.latest.get? n.id with
    | none => simp [checked, hrec] at hlast
    | some rec₀ =>
      simp only [checked, hrec, Option.map_some, Option.some.injEq] at hlast
      have hinterval : (h.checked n).interval = some rec₀.view.interval := by simp [checked, hrec]
      rw [hinterval]
      simp only [hrec, hi, hrule, Option.bind_some, hr, hfiring, hnotified, beq_self_eq_true, Bool.and_self,
        Bool.not_true, Bool.false_or, Bool.or_eq_true, hf, Option.any_some, decide_eq_true_eq] at hcheck
      obtain ⟨hfclock, hlatest⟩ := hsil
      rcases hlatest rec₀ hrec with ⟨hstart, hlimit⟩ | ⟨hstart, hpush⟩
      · omega
      · omega
  · rw [hnone] at hi
    cases hi
  · exact hlimit n rfl last hlast

/-- The new told ends of offline alerts of listed nodes are told on a push of their node, or as ended by the rule. -/
def Recovered (h : Hub) (s : HubStep) : Prop :=
  ∃ ns, (h.step s).engine.notes = h.engine.notes ++ ns ∧ ∀ n ∈ ns, n.quiet = none → n.event.kind = .resolved →
    n.event.rule = .default .offline → n.event.endedByRule = false → (h.step s).Listed n.event.node →
      h.Listed n.event.node ∧ ∃ v written, s.op = .push n.event.node v written

/-- A step that logs nothing. -/
private theorem recovered_of_notes {h : Hub} {s : HubStep} (hn : (h.step s).engine.notes = h.engine.notes) :
    h.Recovered s :=
  ⟨[], by rw [hn, List.append_nil], by simp⟩

private theorem recovered_push (h : Hub) (t : ℤ) (id : NodeId) (v : View) (written : Bool) :
    h.Recovered ⟨t, .push id v written⟩ := by
  cases hn : h.nodes.find? fun n => n.id = id with
  | none =>
    refine recovered_of_notes ?_
    unfold step effect
    dsimp only
    rw [hn]
  | some n =>
    have hid : n.id = id := by simpa using List.find?_some hn
    have hengine : (h.step ⟨t, .push id v written⟩).engine = h.engine.evaluate (pushing n) v t := by
      unfold step effect
      dsimp only
      rw [hn]
      rfl
    obtain ⟨ns, hns, hall⟩ := (Engine.evaluate_acts h.engine (pushing n) v t).notes (evaluateAct_onLive _ _ _ _)
    have hsee : (h.engine.see (pushing n).id v).notes = h.engine.notes := by
      unfold Engine.see
      split <;> rfl
    refine ⟨ns, by rw [hengine, hns, hsee], fun note hnote _ _ _ _ _ => ?_⟩
    obtain ⟨e₁, a, ns₁, -, ha, htouch, hmem⟩ := hall note hnote
    have hnode : note.event.node = id := by
      rw [show note.event.node = note.event.ident.node from rfl, htouch.about note hmem, ← hid]
      cases ha with
      | offline => rfl
      | value => rfl
      | gone => rfl
      | ended _ _ _ _ _ _ hin => exact hin
    exact ⟨⟨n, List.mem_of_find?_eq_some hn, hid.trans hnode.symm⟩, v, written, by rw [hnode]⟩

private theorem recovered_minute {h : Hub} (hs : h.Sound) {t : ℤ} (ht : h.clock ≤ t) (hsettled : h.settled t = true) :
    h.Recovered ⟨t, .minute⟩ := by
  have hacts := Engine.check_acts h.engine (h.nodes.map h.checked) t
  obtain ⟨ns, hns, hall⟩ := hacts.notes (checkAct_onLive _ _ _)
  refine ⟨ns, hns, fun note hnote hquiet hkind hrule hended _ => ?_⟩
  obtain ⟨e₁, a, ns₁, hbefore, ha, htouch, hmem⟩ := hall note hnote
  have hu : h.Unjudged t e₁ :=
    hbefore.invariant (I := h.Unjudged t) (fun _ _ hu ha => hu.act hs ha) fun _ => Or.inl rfl
  have habout : note.event.ident = a.ident := htouch.about note hmem
  have hid : a.ident.rule = .default .offline := (congrArg Ident.rule habout).symm.trans hrule
  cases ha with
  | offline n₁ last rule r hn hlast hfind hr =>
    obtain ⟨n, hnmem, rfl⟩ := List.mem_map.1 hn
    obtain ⟨r₀, hruleOf, hfind₀, hoff⟩ := hs.fromFile.ruleOf
    obtain rfl := Option.some.inj (hfind₀.symm.trans hfind)
    have hr₀ : forNode r₀ n = some r := hr
    obtain rfl := hoff.forNode hr₀
    obtain ⟨ns₂, htouch₂, hj⟩ := Engine.judged_touches e₁ r (h.checked n).toNode []
      (some (if limitOf (h.checked n).interval ≤ t - last then 1 else 0)) t
    obtain rfl : ns₁ = ns₂ := List.append_cancel_left (htouch.notes.symm.trans htouch₂.notes)
    obtain ⟨i, hi, hfiring, hover, hq⟩ := hj.resolved hmem hkind
    have hnotified : i.notified = true := by
      rw [← hq, hquiet]
      rfl
    have hident : offlineOf n.id = ⟨r.id, (h.checked n).id, []⟩ := by
      rw [hoff.id]
      rfl
    have hlimit := settled_of_check hs ht hsettled hu hnmem hlast hruleOf hr₀ (hident ▸ hi) hfiring hnotified
    rw [if_pos hlimit, hoff.isOver_one] at hover
    cases hover
  | ended n₁ rule i hn hrule' hnone hi hir hin =>
    rw [Engine.endedByRule_of_finish htouch hmem] at hended
    cases hended
  | again n₁ rule r i hn hrule' hr hi hir hin hfiring hoff => exact absurd hid hoff

private theorem recovered_prune (e : Engine) (old : List Rule) (t : ℤ) :
    ∃ ns, (e.prune old t).notes = e.notes ++ ns ∧ ∀ n ∈ ns, n.event.endedByRule = true := by
  obtain ⟨ns, hns, hall⟩ := (Engine.pruned_acts e old t).notes (pruneAct_onLive _)
  refine ⟨ns, hns, fun note hnote => ?_⟩
  obtain ⟨e₁, a, ns₁, -, ha, htouch, hmem⟩ := hall note hnote
  cases ha with
  | off => exact Engine.endedByRule_of_finish htouch hmem
  | gone => exact Engine.endedByRule_of_finish htouch hmem

/-- A revoked node is no longer listed. -/
private theorem recovered_revoke (h : Hub) (t : ℤ) (id : NodeId) : h.Recovered ⟨t, .revoke id⟩ := by
  obtain ⟨ns, hns, hall⟩ := (Engine.forgotten_acts h.engine id t).notes (forgetAct_onLive _ _)
  refine ⟨ns, hns, fun note hnote _ _ _ _ hlisted => ?_⟩
  obtain ⟨e₁, a, ns₁, -, ha, htouch, hmem⟩ := hall note hnote
  have hnode : note.event.node = id := by
    rw [show note.event.node = note.event.ident.node from rfl, htouch.about note hmem]
    cases ha with
    | known _ _ _ _ hin => exact hin
    | lost _ _ _ hin => exact hin
  obtain ⟨n, hn, hid⟩ := hlisted
  have hne := (List.mem_filter.1 (show n ∈ h.nodes.filter fun n => n.id ≠ id from hn)).2
  exact absurd (hid.trans hnode) (by simpa using hne)

private theorem recovered_step {h : Hub} (hs : h.Sound) {s : HubStep} (hp : h.Possible s)
    (hsettled : h.settles s = true) : h.Recovered s := by
  obtain ⟨t, op⟩ := s
  cases op with
  | push id v written => exact recovered_push h t id v written
  | minute => exact recovered_minute hs hp.1 hsettled
  | muteRule id til => exact recovered_of_notes rfl
  | muteNode id til => exact recovered_of_notes rfl
  | setRules saved =>
    obtain ⟨ns, hns, hall⟩ := recovered_prune { h.engine with rules := buildRules saved } h.engine.rules t
    exact ⟨ns, hns, fun n hn _ _ _ hended _ => absurd (hall n hn) (by simp [hended])⟩
  | pair n =>
    refine recovered_of_notes ?_
    unfold step effect
    dsimp only
    split <;> rfl
  | edit id name tags => exact recovered_of_notes rfl
  | revoke id => exact recovered_revoke h t id
  | restart saved =>
    obtain ⟨ns, hns, hall⟩ :=
      recovered_prune { h.engine with rules := buildRules saved, instances := h.engine.instances.saved } [] t
    exact ⟨ns, hns, fun n hn _ _ _ hended _ => absurd (hall n hn) (by simp [hended])⟩

theorem sound_start {saved : List SavedRule} (hsaved : saved.all SavedRule.fitsOffline = true) (t : ℤ) :
    (start saved t).Sound where
  fromFile := ⟨saved, hsaved, rfl⟩
  fired := fun _ _ hi => (by cases hi)
  snapshots := fun _ _ hr => (by cases hr)

/-- In every run whose minute checks are settled, the end of a told offline alert of a listed node is told on a push
of the node, unless its rule ends there. -/
theorem offline_resolved_by_push (saved : List SavedRule) (hsaved : saved.all SavedRule.fitsOffline = true) (t₀ : ℤ)
    (steps : List HubStep) (hpossible : Runs.Meets Hub.step Possible (start saved t₀) steps)
    (hsettled : Runs.Meets Hub.step (fun h s => h.settles s = true) (start saved t₀) steps) :
    Runs.Meets Hub.step Recovered (start saved t₀) steps :=
  (hpossible.and hsettled).each (I := Sound) (fun _ _ hs hok => hs.step hok.1)
    (fun _ _ hs hok => recovered_step hs hok.1 hok.2) (sound_start hsaved t₀)

/-- A node that pushes once, goes offline, and stays silent over a restart. -/
def silentNode : Node := ⟨⟨js "abcdefghijkl", by decide⟩, js "nas", []⟩

/-- A push after a minute, the check ten minutes later that fires the alert, a restart, and what comes after. -/
def silentRun (after : List HubStep) : List HubStep :=
  [⟨1000, .pair silentNode⟩, ⟨60000, .push silentNode.id (.bare 60) true⟩, ⟨660000, .minute⟩, ⟨700000, .restart []⟩] ++
    after

/-- A check ten minutes after the restart leaves the alert, and the next push ends it. -/
theorem settled_run_recovers :
    Runs.Meets Hub.step Recovered (start [] 0)
      (silentRun [⟨1300000, .minute⟩, ⟨1360000, .push silentNode.id (.bare 60) true⟩]) :=
  offline_resolved_by_push [] rfl 0 _ (by decide +kernel) (by decide +kernel)

/-- A minute after a restart the check tells an offline alert as resolved that no push ended. -/
theorem restart_resolves_offline :
    ¬ ∀ saved : List SavedRule, saved.all SavedRule.fitsOffline = true → ∀ t₀ steps,
      Runs.Meets Hub.step Possible (start saved t₀) steps → Runs.Meets Hub.step Recovered (start saved t₀) steps := by
  intro h
  have hrun := h [] rfl 0 (silentRun [⟨720000, .minute⟩]) (by decide +kernel)
  obtain ⟨ns, hns, hall⟩ := hrun.at (show _ = silentRun [] ++ ⟨720000, .minute⟩ :: [] from rfl)
  have hnote : ∃ n ∈ ((Runs.run Hub.step (start [] 0) (silentRun [])).step ⟨720000, .minute⟩).engine.notes.drop
      (Runs.run Hub.step (start [] 0) (silentRun [])).engine.notes.length,
      n.quiet = none ∧ n.event.kind = .resolved ∧ n.event.rule = .default .offline ∧ n.event.endedByRule = false ∧
        ∃ m ∈ ((Runs.run Hub.step (start [] 0) (silentRun [])).step ⟨720000, .minute⟩).nodes, m.id = n.event.node := by
    decide +kernel
  rw [hns, List.drop_left] at hnote
  obtain ⟨n, hn, hquiet, hkind, hrule, hended, hlisted⟩ := hnote
  obtain ⟨-, v, written, hpush⟩ := hall n hn hquiet hkind hrule hended hlisted
  cases hpush

end Hub

end Servitals
