import Servitals.AlertJudged

/-!
# An alert after its rule's metric was edited

`setRules` ends the alerts of a rule that is removed or turned off, and no others: those of a rule that watches another
metric from now on end when a push is judged on the new metric.  A push that lacks the new metric's group is not judged
on it, and the alert that was last judged on the old metric stays (`old_metric_ends`, `kept_without_the_group`).
-/

namespace Servitals

/-- What a rule watches: a metric, and one of its disks or containers or all of them. -/
def Rule.watch (r : Rule) : Metric × Option JsString := (r.metric, r.sub)

/-- What a judgement was on; an end is no judgement. -/
def Cause.watch : Cause → Option (Metric × Option JsString)
  | .judged r _ => some r.watch
  | .ended => none

/-- What the last judgement of an identity was on. -/
def lastWatch (ms : List Move) (id : Ident) : Option (Metric × Option JsString) :=
  ms.reverse.findSome? fun m => if m.ident = id then m.cause.watch else none

/-- A push has the group of the metric. -/
def View.gives (v : View) (metric : Metric) : Bool := (valuesOf metric v []).isSome

/-- A call that is no edit of the rules and no start. -/
def Engine.EngineOp.keepsRules : Engine.EngineOp → Bool
  | .setRules _ | .restart _ => false
  | _ => true

namespace Engine

variable {e e' : Engine} {t : ℤ} {new : Rule} {node : Node} {v : View}

/-- The node's instances of a rule that were last judged on `old`. -/
def Stale (e : Engine) (new : Rule) (node : NodeId) (old : Metric × Option JsString) (i : Inst) : Prop :=
  e.Has i ∧ i.rule = new.id ∧ i.node = node ∧ lastWatch e.moves i.ident = some old

/-! ### What a judgement was on -/

private theorem lastWatch_append (ms ms' : List Move) (id : Ident) :
    lastWatch (ms ++ ms') id = (lastWatch ms' id).or (lastWatch ms id) := by
  rw [lastWatch, List.reverse_append, List.findSome?_append]
  rfl

private theorem lastWatch_judged (e : Engine) (r : Rule) (node : Node) (sub : JsString) (value : Option ℚ) (t : ℤ) :
    lastWatch (e.judged r node sub value t).moves ⟨r.id, node.id, sub⟩ = some r.watch := by
  have hmoves := moves_act e t (.judged r node sub value)
  rw [act] at hmoves
  rw [hmoves, lastWatch_append]
  simp [lastWatch, entry, Cause.watch]

/-- An act about another identity. -/
private theorem lastWatch_act {a : Act} {id : Ident} (h : a.ident ≠ id) (e : Engine) (t : ℤ) :
    lastWatch (e.act t a).moves id = lastWatch e.moves id := by
  rw [moves_act, lastWatch_append]
  have hnone : lastWatch (e.entry t a) id = none := by
    cases a <;> simp_all [lastWatch, entry, Act.ident]
  rw [hnone, Option.none_or]

/-- Whether a push has a metric's group does not depend on the containers seen running. -/
private theorem isSome_valuesOf (metric : Metric) (v : View) (run : List JsString) :
    (valuesOf metric v run).isSome = v.gives metric := by
  cases metric <;> simp [View.gives, valuesOf]

/-! ### A rule on a push -/

/-- Rules with other ids leave an identity, and what it was last judged on. -/
private theorem others_evaluateRules (rules : List Rule) {id : Ident} (hid : ∀ r ∈ rules, r.id ≠ id.rule) (e : Engine)
    (node : Node) (v : View) (run : List JsString) (t : ℤ) :
    (rules.foldl (evaluateRule node v run t) e).instances.get? id = e.instances.get? id ∧
      lastWatch (rules.foldl (evaluateRule node v run t) e).moves id = lastWatch e.moves id := by
  have hacts := evaluateRules_acts e rules node v run t
  have hne : ∀ e₁ a, EvaluateAct rules node v run e₁ a → a.ident ≠ id := by
    intro e₁ a ha hident
    cases ha with
    | offline rule r hr hf => exact hid rule hr ((forNode_id hf).symm.trans (congrArg Ident.rule hident))
    | value rule r vals x hr hf => exact hid rule hr ((forNode_id hf).symm.trans (congrArg Ident.rule hident))
    | gone rule r vals i hr hf => exact hid rule hr ((forNode_id hf).symm.trans (congrArg Ident.rule hident))
    | ended rule i hr _ _ hi => exact hid rule hr (hi.symm.trans (congrArg Ident.rule hident))
  refine ⟨hacts.others (evaluateAct_onLive _ _ _ _) fun e₁ a ha => (hne e₁ a ha).symm, ?_⟩
  exact hacts.invariant (I := fun e₁ => lastWatch e₁.moves id = lastWatch e.moves id)
    (fun e₁ a h₁ ha => (lastWatch_act (hne e₁ a ha) e₁ t).trans h₁) rfl

end Engine

/-- A judgement without a value leaves no instance. -/
private theorem Judged.eq_none_of_none {r : Rule} {t : ℤ} {oi oi' : Option Inst} {ns : List Note}
    (h : Judged r none t oi ns oi') : oi' = none := by
  cases h with
  | absent => rfl
  | lapses => rfl
  | waits _ _ _ hv => simp [Rule.holds] at hv
  | fires _ _ _ _ hv => simp [Rule.holds] at hv
  | ends => rfl
  | stays _ _ _ _ _ hover => simp [Rule.isOver] at hover

/-- The acts of one rule that a push judges. -/
def JudgeAct (r : Rule) (node : Node) (_ : Engine) (a : Act) : Prop := ∃ sub value, a = .judged r node sub value

private theorem judgeAct_onLive (r : Rule) (node : Node) : OnLive (JudgeAct r node) := by
  rintro e a ⟨sub, value, rfl⟩
  trivial

namespace Engine

variable {e e' : Engine} {t : ℤ} {node : Node}

/-- Judgements under a rule leave what was last judged on what the rule watches. -/
private theorem lastWatch_judgeActs {r : Rule} (h : Acts (JudgeAct r node) t e e') {id : Ident}
    (hid : lastWatch e.moves id = some r.watch) : lastWatch e'.moves id = some r.watch := by
  refine h.invariant (I := fun e => lastWatch e.moves id = some r.watch) (fun e₁ a h₁ ha => ?_) hid
  obtain ⟨sub, value, rfl⟩ := ha
  by_cases hsame : (⟨r.id, node.id, sub⟩ : Ident) = id
  · rw [← hsame]
    exact lastWatch_judged e₁ r node sub value t
  · have hother : (Act.judged r node sub value).ident ≠ id := hsame
    exact (lastWatch_act hother e₁ t).trans h₁

/-- A rule on a group that is present: what is left of it on the node was judged now. -/
private theorem lastWatch_judgeGroup (e : Engine) (r : Rule) (node : Node) (vals : List SubValue) (t : ℤ) {i : Inst}
    (hi : (e.judgeGroup r node vals t).Has i) (hrule : i.rule = r.id) (hnode : i.node = node.id) :
    lastWatch (e.judgeGroup r node vals t).moves i.ident = some r.watch := by
  have hlive := judgeAct_onLive r node
  have hvalues : ∀ (l : List SubValue) (e : Engine),
      Acts (JudgeAct r node) t e (l.foldl (fun e x => e.judged r node x.sub (some x.value) t) e) := fun l e =>
    Acts.foldl hlive (Eq.refl e.rules) fun e₁ x _ _ =>
      have hact : JudgeAct r node e₁ (.judged r node x.sub (some x.value)) := ⟨_, _, rfl⟩
      Acts.single hact
  unfold judgeGroup at hi ⊢
  dsimp only at hi ⊢
  generalize watched r vals = vals at hi ⊢
  generalize he₁ : vals.foldl (fun e x => e.judged r node x.sub (some x.value) t) e = e₁ at hi ⊢
  -- the first loop judges each value, and the second one ends what no value is of
  have hsub : i.sub ∈ vals.map SubValue.sub := by
    have hfilter := forInstances_filter
      (p := fun i => i.rule = r.id → i.node = node.id → i.sub ∈ vals.map SubValue.sub) e₁.rules ?_ ?_ rfl hi
    · exact hfilter hrule hnode
    · intro e₂ i he₂ _
      split
      · obtain ⟨ns, htouch, -⟩ := judged_touches e₂ r node i.sub none t
        exact htouch.rules.trans he₂
      · exact he₂
    · intro e₂ i _ _ j hj
      split at hj
      · rename_i hgone
        obtain ⟨ns, htouch, hjudged⟩ := judged_touches e₂ r node i.sub none t
        have hident : (⟨r.id, node.id, i.sub⟩ : Ident) = i.ident := by
          rw [← hgone.1, ← hgone.2.1]
          rfl
        rw [hident] at htouch hjudged
        by_cases hid : j.ident = i.ident
        · rw [Has, hid, hjudged.eq_none_of_none] at hj
          cases hj
        · rw [Has, htouch.others _ hid] at hj
          exact ⟨hj, fun h => absurd h hid⟩
      · rename_i hkept
        refine ⟨hj, fun hid hjr hjn => ?_⟩
        rw [show j.rule = i.rule from congrArg Ident.rule hid] at hjr
        rw [show j.node = i.node from congrArg Ident.node hid] at hjn
        rw [show j.sub = i.sub from congrArg Ident.sub hid]
        by_contra hnot
        exact hkept ⟨hjr, hjn, by simpa using hnot⟩
  have hfirst : lastWatch e₁.moves i.ident = some r.watch := by
    obtain ⟨x, hx, hxsub⟩ := List.mem_map.1 hsub
    obtain ⟨pre, post, rfl⟩ := List.append_of_mem hx
    have hident : i.ident = ⟨r.id, node.id, x.sub⟩ := by rw [hxsub, ← hrule, ← hnode]; rfl
    rw [← he₁, List.foldl_append, List.foldl_cons, hident]
    exact lastWatch_judgeActs (hvalues post _) (lastWatch_judged _ r node x.sub _ t)
  refine lastWatch_judgeActs (t := t) (Acts.forInstances hlive (Eq.refl e₁.rules) fun e₂ i _ _ => ?_) hfirst
  split
  · have hact : JudgeAct r node e₂ (.judged r node i.sub none) := ⟨_, _, rfl⟩
    exact Acts.single hact
  · exact .refl

/-! ### The push after an edit -/

variable {v : View} {new : Rule} {old : Metric × Option JsString}

/-- Where the rule's instances are the same, and what they were last judged on, the same ones are stale. -/
private theorem stale_congr
    (h : ∀ id : Ident, id.rule = new.id → e'.instances.get? id = e.instances.get? id ∧
      lastWatch e'.moves id = lastWatch e.moves id) {n : NodeId} {i : Inst} :
    Stale e' new n old i ↔ Stale e new n old i := by
  have hi : i.rule = new.id → e'.instances.get? i.ident = e.instances.get? i.ident ∧
      lastWatch e'.moves i.ident = lastWatch e.moves i.ident := fun hrule => h i.ident hrule
  constructor
  · rintro ⟨hhas, hrule, hnode, hlast⟩
    exact ⟨(hi hrule).1.symm.trans hhas, hrule, hnode, (hi hrule).2.symm.trans hlast⟩
  · rintro ⟨hhas, hrule, hnode, hlast⟩
    exact ⟨(hi hrule).1.trans hhas, hrule, hnode, (hi hrule).2.trans hlast⟩

/-- The rule itself on a push. -/
private theorem stale_evaluateRule (hmetric : new.metric ≠ .offline) (hedit : old ≠ new.watch) (e : Engine)
    (run : List JsString) :
    (∀ i, ¬ Stale (evaluateRule node v run t e new) new node.id old i) ↔
      forNode new node = none ∨ v.gives new.metric = true ∨ ∀ i, ¬ Stale e new node.id old i := by
  unfold evaluateRule
  split
  · rename_i hnone
    refine iff_of_true (fun i hi => ?_) (Or.inl hnone)
    exact not_has_endAll e new node.id t hi.1 ⟨hi.2.1, hi.2.2.1⟩
  · rename_i r hr
    have hwatch : r.watch = new.watch := by rw [forNode_eq hr]; rfl
    rw [if_neg (by rw [forNode_metric hr]; exact hmetric), forNode_metric hr]
    have hgives := isSome_valuesOf new.metric v run
    split
    · rename_i hnone
      rw [hnone] at hgives
      simp [← hgives, hr]
    · rename_i vals hvals
      rw [hvals] at hgives
      refine iff_of_true (fun i hi => ?_) (Or.inr (Or.inl hgives.symm))
      have hnow := lastWatch_judgeGroup e r node vals t hi.1 (hi.2.1.trans (forNode_id hr).symm) hi.2.2.1
      rw [hi.2.2.2, hwatch] at hnow
      exact hedit (Option.some.inj hnow)

/-- A push under the new rule. -/
private theorem stale_evaluate (hids : (e.rules.map Rule.id).Nodup) (hnew : new ∈ e.rules)
    (hmetric : new.metric ≠ .offline)
    (hedit : old ≠ new.watch) (node : Node) (v : View) (t : ℤ) :
    (∀ i, ¬ Stale (e.evaluate node v t) new node.id old i) ↔
      forNode new node = none ∨ v.gives new.metric = true ∨ ∀ i, ¬ Stale e new node.id old i := by
  obtain ⟨pre, post, hsplit⟩ := List.append_of_mem hnew
  rw [hsplit, List.map_append, List.map_cons, List.nodup_append, List.nodup_cons] at hids
  have hpre : ∀ r ∈ pre, r.id ≠ new.id := fun r hr =>
    hids.2.2 r.id (List.mem_map_of_mem hr) new.id List.mem_cons_self
  have hpost : ∀ r ∈ post, r.id ≠ new.id := fun r hr heq =>
    hids.2.1.1 (heq ▸ List.mem_map_of_mem hr)
  have hsee : (e.see node.id v).instances = e.instances ∧ (e.see node.id v).moves = e.moves := by
    unfold see
    split <;> exact ⟨rfl, rfl⟩
  unfold evaluate
  dsimp only
  rw [hsplit, List.foldl_append, List.foldl_cons]
  generalize seenRunning (e.runningOf node.id) v = run
  have hafter : ∀ e₁ i, Stale (post.foldl (evaluateRule node v run t) e₁) new node.id old i ↔
      Stale e₁ new node.id old i := fun e₁ i =>
    stale_congr fun id hid => others_evaluateRules post (fun r hr => hid ▸ hpost r hr) e₁ node v run t
  have hbefore : ∀ i, Stale (pre.foldl (evaluateRule node v run t) (e.see node.id v)) new node.id old i ↔
      Stale e new node.id old i := fun i => by
    refine stale_congr fun id hid => ?_
    obtain ⟨hget, hlast⟩ := others_evaluateRules pre (fun r hr => hid ▸ hpre r hr) (e.see node.id v) node v run t
    rw [hsee.1] at hget
    rw [hsee.2] at hlast
    exact ⟨hget, hlast⟩
  simp only [hafter, stale_evaluateRule hmetric hedit, hbefore]

/-- A call that edits no rules leaves them. -/
private theorem rules_call {c : Call} (hc : c.op.keepsRules = true) (e : Engine) : (e.call c).rules = e.rules := by
  obtain ⟨t, op⟩ := c
  cases op with
  | evaluate node v =>
    refine ((evaluate_acts e node v t).rules (evaluateAct_onLive _ _ _ _)).trans ?_
    unfold see
    split <;> rfl
  | check nodes => exact (check_acts e nodes t).rules (checkAct_onLive _ _ _)
  | muteRule id til => rfl
  | muteNode id til => rfl
  | setRules saved => cases hc
  | forget node =>
    show (e.forgotten node t).rules = e.rules
    exact (forgotten_acts e node t).rules (forgetAct_onLive _ _)
  | restart saved => cases hc

/-- A rule of the list `list` that `setRules` brings watches something else than before (`old`).  After any calls but
another edit and then a push of a node, no instance of the rule that was last judged on `old` is left on the node if
and only if the rule does not hold for the node (its instances end), the push has the group of the rule's metric, or
there was no such instance before the push. -/
theorem old_metric_ends (e : Engine) {list : List Rule} (hids : (list.map Rule.id).Nodup) {new : Rule}
    (hnew : new ∈ list) (hmetric : new.metric ≠ .offline) {old : Metric × Option JsString} (hedit : old ≠ new.watch)
    (t : ℤ) (calls : List Call) (hcalls : ∀ c ∈ calls, c.op.keepsRules = true) (node : Node) (v : View) (t' : ℤ) :
    let before := Runs.run call (e.setRules list t) calls
    (∀ i, ¬ Stale (before.evaluate node v t') new node.id old i) ↔
      forNode new node = none ∨ v.gives new.metric = true ∨ ∀ i, ¬ Stale before new node.id old i := by
  intro before
  have hrules : before.rules = list := by
    have hset : (e.setRules list t).rules = list := by
      exact (pruned_acts { e with rules := list } e.rules t).rules (pruneAct_onLive _)
    have hmeets : Runs.Meets call (fun _ c => c.op.keepsRules = true) (e.setRules list t) calls :=
      Runs.meets_of_forall hcalls
    exact hmeets.invariant (I := fun e => e.rules = list) (fun e₁ c h₁ hc => (rules_call hc e₁).trans h₁) hset
  exact stale_evaluate (hrules ▸ hids) (hrules ▸ hnew) hmetric hedit node v t'

private theorem isCustomId_filling : isCustomId (js "c_filling") = true := by decide

private theorem isNodeId_filling : isNodeId (js "aaaaaaaaaaaa") = true := by decide

/-- A rule of one's own on a metric. -/
private def filling (metric : Metric) (threshold : ℚ) : OwnRule :=
  ⟨⟨js "c_filling", isCustomId_filling⟩, js "filling up", metric, .ge, threshold, 0, none, .warning, false, none, none, []⟩

private def fillingNode : Node := ⟨⟨js "aaaaaaaaaaaa", isNodeId_filling⟩, js "nas", []⟩

private def fullDisk : View := { View.bare 60 with disks := some [⟨js "/", some true, some 97⟩] }

/-- The engine after a push that met the rule on disks. -/
private def filled : Engine :=
  (create (buildRules [.own (filling .diskUsed 90)])).evaluate fillingNode fullDisk 0

/-- A push with a temperature ends the alert that was about a disk. -/
theorem ended_by_the_group :
    ({ View.bare 60 with temp := some ⟨some 40⟩ } : View).gives (filling .temp 85).toRule.metric = true ∧
      ∀ i, ¬ Stale ((Runs.run call (filled.setRules (buildRules [.own (filling .temp 85)]) MIN)
          [⟨2 * MIN, .muteNode fillingNode.id 0⟩]).evaluate fillingNode
            { View.bare 60 with temp := some ⟨some 40⟩ } (3 * MIN))
        (filling .temp 85).toRule fillingNode.id (filling .diskUsed 90).toRule.watch i :=
  have hgives : ({ View.bare 60 with temp := some ⟨some 40⟩ } : View).gives (filling .temp 85).toRule.metric = true := by
    decide +kernel
  ⟨hgives, (old_metric_ends filled (by decide +kernel) (by simp [buildRules]) (by decide) (by decide) MIN
    [⟨2 * MIN, .muteNode fillingNode.id 0⟩] (by decide) fillingNode { View.bare 60 with temp := some ⟨some 40⟩ }
    (3 * MIN)).2 (Or.inr (Or.inl hgives))⟩

/-- A push without one keeps it: the alert of a rule on temperatures is firing on what was a disk. -/
theorem kept_without_the_group :
    ∃ i, Stale ((filled.setRules (buildRules [.own (filling .temp 85)]) MIN).evaluate fillingNode
        (View.bare 60) (2 * MIN))
      (filling .temp 85).toRule fillingNode.id (filling .diskUsed 90).toRule.watch i ∧ i.state = .firing := by
  refine ⟨⟨.own ⟨js "c_filling", isCustomId_filling⟩, fillingNode.id, js "nas", js "/", .firing, 0, some 97, some 0,
    some .warning, true, some 0⟩, ⟨?_, rfl, rfl, ?_⟩, rfl⟩
  · unfold Has
    decide +kernel
  · decide +kernel

end Engine

end Servitals
