import Servitals.AlertSteps
import Servitals.Lib.Runs
import Servitals.Lib.Rounds

/-!
# What the alert engine tells

For each identity the events handed to `onEvent` spell rounds: a firing, repeats at least a day apart, a resolved.
The invariant (`Tells`): what was told so far reads as rounds, and it ends inside one exactly when the instance is
firing and was told, last at the round's last mark.
-/

namespace Servitals

/-- Two consecutive events of a round are at least a day apart. -/
def Daily (a b : ℤ) : Prop := a + DAY ≤ b

instance : DecidableRel Daily := fun a b => inferInstanceAs (Decidable (a + DAY ≤ b))

def Kind.mark : Kind → Rounds.Mark
  | firing => .start
  | repeated => .again
  | resolved => .stop

/-- What the notes told, as marks. -/
def toldMarks (ns : List Note) : List (Rounds.Mark × ℤ) :=
  (ns.filter fun n => n.quiet.isNone).map fun n => (n.event.kind.mark, n.event.time)

/-- The events handed to `onEvent` about an identity, as marks. -/
def Engine.toldAbout (e : Engine) (id : Ident) : List (Rounds.Mark × ℤ) :=
  (e.told.filter fun ev => ev.ident = id).map fun ev => (ev.kind.mark, ev.time)

/-- The round under way as the instance says: firing and told, last at `l`. -/
inductive Agrees : Option ℤ → Option Inst → Prop
  | closed (oi : Option Inst) : (∀ i, oi = some i → i.state = .firing → i.notified = false) → Agrees none oi
  | inside (i : Inst) (l : ℤ) : i.state = .firing → i.notified = true → i.lastNotified = some l →
      Agrees (some l) (some i)

private theorem Agrees.of_not_firing {p : Option ℤ} {oi : Option Inst} (h : Agrees p oi)
    (ho : ∀ i, oi = some i → i.state ≠ .firing) : p = none := by
  cases h with
  | closed => rfl
  | inside i l hs => exact absurd hs (ho i rfl)

private theorem Agrees.of_untold {p : Option ℤ} {i : Inst} (h : Agrees p (some i)) (hn : i.notified = false) :
    p = none := by
  cases h with
  | closed => rfl
  | inside i l hs hn' => rw [hn] at hn'; cases hn'

private theorem Agrees.of_told {p : Option ℤ} {i : Inst} (h : Agrees p (some i)) (hs : i.state = .firing)
    (hn : i.notified = true) : ∃ l, p = some l ∧ i.lastNotified = some l := by
  cases h with
  | closed _ hc => rw [hc i rfl hs] at hn; cases hn
  | inside i l _ _ hl => exact ⟨l, rfl, hl⟩

/-- An instance that agrees agrees as well with another value and node name. -/
theorem Agrees.congr {p : Option ℤ} {i i' : Inst} (h : Agrees p (some i)) (hs : i'.state = i.state)
    (hn : i'.notified = i.notified) (hl : i'.lastNotified = i.lastNotified) : Agrees p (some i') := by
  cases h with
  | closed _ hc =>
    refine .closed _ ?_
    rintro j ⟨⟩ hj
    rw [hn]
    exact hc i rfl (hs ▸ hj)
  | inside _ l h₁ h₂ h₃ => exact .inside i' l (hs.trans h₁) (hn.trans h₂) (hl.trans h₃)

/-! ### The marks of one note -/

private theorem toldMarks_append (ns ns' : List Note) : toldMarks (ns ++ ns') = toldMarks ns ++ toldMarks ns' := by
  simp [toldMarks]

private theorem toldMarks_told {n : Note} (h : n.quiet = none) :
    toldMarks [n] = [(n.event.kind.mark, n.event.time)] := by
  simp [toldMarks, h]

private theorem toldMarks_quiet {n : Note} (h : n.quiet.isNone = false) : toldMarks [n] = [] := by
  simp [toldMarks, h]

/-- The notes `ns` continue what was told from `p`, and then `oi` agrees. -/
def Continues (p : Option ℤ) (ns : List Note) (oi : Option Inst) : Prop :=
  ∃ q, Rounds.read Daily p (toldMarks ns) = some q ∧ Agrees q oi

theorem Continues.nil {p : Option ℤ} {oi : Option Inst} (h : Agrees p oi) : Continues p [] oi := ⟨p, rfl, h⟩

/-- The end of an instance continues what was told: its end is told exactly when its start was. -/
theorem Agrees.ends {p : Option ℤ} {i : Inst} (h : Agrees p (some i)) (hs : i.state = .firing) {n : Note}
    (hk : n.event.kind = .resolved) (hq : n.quiet.isNone = i.notified) : Continues p [n] none := by
  have hnone : Agrees none none := .closed none (by simp)
  cases hn : i.notified with
  | false =>
    rw [h.of_untold hn, Continues, toldMarks_quiet (hq.trans hn)]
    exact ⟨none, rfl, hnone⟩
  | true =>
    obtain ⟨l, rfl, -⟩ := h.of_told hs hn
    rw [Continues, toldMarks_told (Option.isNone_iff_eq_none.1 (hq.trans hn)), hk]
    exact ⟨none, rfl, hnone⟩

private theorem Agrees.retold {r : Rule} (hr : r.repeatTime = DAY) {t : ℤ} {p : Option ℤ} {i i' : Inst} {ns : List Note}
    (h : Agrees p (some i)) (hs : i.state = .firing) (hj : Retold r t i ns i') : Continues p ns (some i') := by
  cases hj with
  | kept => exact .nil h
  | late n hn hk ht hq =>
    rw [h.of_untold hn, Continues, toldMarks_told hq, hk, ht]
    exact ⟨some t, rfl, .inside _ t hs rfl rfl⟩
  | again n l hn hl hrep hk ht hq =>
    obtain ⟨l', rfl, hl'⟩ := h.of_told hs hn
    rw [hl] at hl'
    cases hl'
    rw [Continues, toldMarks_told hq, hk, ht]
    have hgap : Daily l t := by
      unfold Daily
      omega
    refine ⟨some t, ?_, .inside _ t hs rfl rfl⟩
    show (Rounds.next Daily (some l) (.again, t)).bind (fun q => some q) = some (some t)
    rw [Rounds.next_again, if_pos hgap]
    rfl

/-- Judging an instance continues what was told. -/
theorem Agrees.judged {r : Rule} (hr : r.repeatTime = DAY) {value : Option ℚ} {t : ℤ} {p : Option ℤ}
    {oi oi' : Option Inst} {ns : List Note} (h : Agrees p oi) (hj : Judged r value t oi ns oi') :
    Continues p ns oi' := by
  cases hj with
  | absent => exact .nil h
  | lapses i hs =>
    rw [h.of_not_firing (by rintro j ⟨⟩; exact hs)]
    exact .nil (.closed none (by simp))
  | waits _ i' ho _ hs =>
    rw [h.of_not_firing ho]
    refine .nil (.closed _ ?_)
    rintro j ⟨⟩ hj
    rw [hs] at hj
    cases hj
  | fires _ i' n ho _ hs _ _ hk ht hn hl =>
    rw [h.of_not_firing ho]
    cases hq : n.quiet with
    | none =>
      rw [hq] at hn
      rw [Continues, toldMarks_told hq, hk, ht]
      exact ⟨some t, rfl, .inside i' t hs hn (hl hn)⟩
    | some w =>
      rw [hq] at hn
      rw [Continues, toldMarks_quiet (by rw [hq]; rfl)]
      exact ⟨none, rfl, .closed _ (by rintro j ⟨⟩ _; exact hn)⟩
  | ends i n hs _ hk hq => exact h.ends hs hk hq
  | stays i i' name _ hs _ hret =>
    have hseen : Agrees p (some (i.seen value name)) := h.congr rfl rfl rfl
    exact hseen.retold hr hs hret

/-! ### The invariant -/

/-- What was told about every identity reads as rounds, and agrees with its instance. -/
def Reads (e : Engine) : Prop :=
  ∀ id, ∃ p, Rounds.read Daily none (e.toldAbout id) = some p ∧ Agrees p (e.instances.get? id)

/-- What was told reads as rounds; every instance's rule is one of the engine's, and all of these repeat daily. -/
structure Tells (e : Engine) : Prop where
  reads : Reads e
  known : ∀ i, e.Has i → (e.ruleOf i.rule).isSome
  daily : ∀ r ∈ e.rules, r.repeatTime = DAY

private theorem toldAbout_eq (e : Engine) (id : Ident) :
    e.toldAbout id = toldMarks (e.notes.filter fun n => n.event.ident = id) := by
  unfold Engine.toldAbout Engine.told toldMarks
  induction e.notes with
  | nil => rfl
  | cons n ns ih =>
    by_cases hq : n.quiet.isNone <;> by_cases hid : n.event.ident = id <;>
      simp only [hq, hid, List.filterMap_cons, List.filter_cons, List.map_cons, decide_true, decide_false, if_true,
        Bool.false_eq_true, if_false, ih]

private theorem toldAbout_touches {id : Ident} {ns : List Note} {e e' : Engine} (h : Touches id ns e e') (id' : Ident) :
    e'.toldAbout id' = e.toldAbout id' ++ if id' = id then toldMarks ns else [] := by
  rw [toldAbout_eq, toldAbout_eq, h.notes, List.filter_append, toldMarks_append]
  congr 1
  split
  · rename_i hid
    rw [List.filter_eq_self.2 fun n hn => by rw [h.about n hn, hid, decide_eq_true_eq]]
  · rename_i hid
    rw [List.filter_eq_nil_iff.2 fun n hn => by rw [h.about n hn, decide_eq_true_eq]; exact fun e => hid e.symm]
    rfl

/-- A touch that continues what was told of its identity keeps the reading. -/
private theorem Reads.touches {id : Ident} {ns : List Note} {e e' : Engine} (h : Reads e) (htouch : Touches id ns e e')
    (hc : ∀ p, Agrees p (e.instances.get? id) → Continues p ns (e'.instances.get? id)) : Reads e' := by
  intro id'
  obtain ⟨p, hread, hagree⟩ := h id'
  rw [toldAbout_touches htouch, Rounds.read_append, hread]
  by_cases hid : id' = id
  · subst hid
    obtain ⟨q, hq, hagree'⟩ := hc p hagree
    rw [if_pos rfl]
    exact ⟨q, hq, hagree'⟩
  · rw [if_neg hid, htouch.others id' hid]
    exact ⟨p, rfl, hagree⟩

/-- The reading looks at the log and at what the instances say of their telling. -/
theorem Reads.congr {e e' : Engine} (h : Reads e) (hn : e'.notes = e.notes)
    (hi : ∀ id, ∃ v : Inst → Option ℚ, e'.instances.get? id = (e.instances.get? id).map fun i => { i with value := v i }) :
    Reads e' := by
  intro id
  obtain ⟨p, hread, hagree⟩ := h id
  refine ⟨p, by rw [toldAbout_eq, hn, ← toldAbout_eq, hread], ?_⟩
  obtain ⟨v, hv⟩ := hi id
  rw [hv]
  cases hg : e.instances.get? id with
  | none => rw [hg] at hagree; exact hagree
  | some i => rw [hg] at hagree; exact hagree.congr rfl rfl rfl

theorem Reads.judged {e : Engine} (h : Reads e) {r : Rule} (hr : r.repeatTime = DAY) (node : Node) (sub : JsString)
    (value : Option ℚ) (t : ℤ) : Reads (e.judged r node sub value t) := by
  obtain ⟨ns, htouch, hj⟩ := Engine.judged_touches e r node sub value t
  exact h.touches htouch fun p hp => hp.judged hr hj

theorem Reads.retell {e : Engine} (h : Reads e) {i : Inst} (hi : e.Has i) (hs : i.state = .firing) {r : Rule}
    (hr : r.repeatTime = DAY) (t : ℤ) : Reads (e.retell i r t) := by
  obtain ⟨ns, i', htouch, hget, hj⟩ := Engine.retell_touches e hi r t
  refine h.touches htouch fun p hp => ?_
  rw [hi] at hp
  rw [hget]
  exact hp.retold hr hs hj

theorem Reads.finish {e : Engine} (h : Reads e) {i : Inst} (hi : e.Has i) (r : RuleInfo) (b : Bool) (t : ℤ) :
    Reads (e.finish i r b t) := by
  obtain ⟨ns, htouch, hns⟩ := Engine.finish_touches e i r b t
  refine h.touches htouch fun p hp => ?_
  rw [hi] at hp
  rw [Engine.get?_finish_self]
  rcases hns with ⟨hs, rfl⟩ | ⟨hs, rfl⟩
  · exact hp.ends hs rfl (Engine.isNone_why_resolved e i r t)
  · rw [hp.of_not_firing (by rintro j ⟨⟩; exact hs)]
    exact .nil (.closed none (by simp))

/-! ### Every act keeps the invariant -/

namespace Tells

variable {e : Engine} {t : ℤ}

theorem judged (h : Tells e) {rule r : Rule} (hrule : rule ∈ e.rules) {node : Node} (hr : forNode rule node = some r)
    (sub : JsString) (value : Option ℚ) : Tells (e.judged r node sub value t) := by
  obtain ⟨ns, htouch, -⟩ := Engine.judged_touches e r node sub value t
  have hday : r.repeatTime = DAY := (forNode_repeatTime hr).trans (h.daily rule hrule)
  refine ⟨h.reads.judged hday node sub value t, ?_, htouch.rules ▸ h.daily⟩
  intro i hi
  rw [Engine.ruleOf, htouch.rules]
  by_cases hid : i.ident = ⟨r.id, node.id, sub⟩
  · rw [show i.rule = rule.id from (congrArg Ident.rule hid).trans (forNode_id hr)]
    exact List.find?_isSome.2 ⟨rule, hrule, by simp⟩
  · rw [Engine.Has, htouch.others _ hid] at hi
    exact h.known i hi

theorem retell (h : Tells e) {i : Inst} (hi : e.Has i) (hs : i.state = .firing) {rule r : Rule} {node : Node}
    (hrule : rule ∈ e.rules) (hr : forNode rule node = some r) : Tells (e.retell i r t) := by
  obtain ⟨ns, i', htouch, hget, hj⟩ := Engine.retell_touches e hi r t
  have hday : r.repeatTime = DAY := (forNode_repeatTime hr).trans (h.daily rule hrule)
  refine ⟨h.reads.retell hi hs hday t, ?_, htouch.rules ▸ h.daily⟩
  intro j hj'
  rw [Engine.ruleOf, htouch.rules]
  by_cases hid : j.ident = i.ident
  · rw [show j.rule = i.rule from congrArg Ident.rule hid]
    exact h.known i hi
  · rw [Engine.Has, htouch.others _ hid] at hj'
    exact h.known j hj'

theorem finish (h : Tells e) {i : Inst} (hi : e.Has i) (r : RuleInfo) (b : Bool) : Tells (e.finish i r b t) := by
  obtain ⟨ns, htouch, -⟩ := Engine.finish_touches e i r b t
  refine ⟨h.reads.finish hi r b t, ?_, htouch.rules ▸ h.daily⟩
  intro j hj
  rw [Engine.ruleOf, htouch.rules]
  by_cases hid : j.ident = i.ident
  · rw [Engine.Has, hid, Engine.get?_finish_self] at hj
    cases hj
  · rw [Engine.Has, htouch.others _ hid] at hj
    exact h.known j hj

/-- What is not about rules, the log or what the instances say of their telling can change freely. -/
theorem congr (h : Tells e) {e' : Engine} (hr : e'.rules = e.rules) (hn : e'.notes = e.notes)
    (hi : e'.instances = e.instances) : Tells e' where
  reads := h.reads.congr hn fun id => ⟨Inst.value, by rw [hi]; simp⟩
  known := fun i hi' => by
    rw [Engine.Has, hi] at hi'
    rw [Engine.ruleOf, hr]
    exact h.known i hi'
  daily := hr ▸ h.daily

/-- Allowed acts keep the invariant when each does. -/
theorem acts {allowed : Engine → Act → Prop} (hlive : OnLive allowed)
    (hact : ∀ e₁ a, e₁.rules = e.rules → Tells e₁ → allowed e₁ a → Tells (e₁.act t a)) {e' : Engine}
    (h : Tells e) (hacts : Acts allowed t e e') : Tells e' := by
  refine (hacts.invariant (I := fun e₁ => e₁.rules = e.rules ∧ Tells e₁) ?_ ⟨rfl, h⟩).2
  rintro e₁ a ⟨hr, h₁⟩ ha
  exact ⟨(Acts.rules_act hlive ha).trans hr, hact e₁ a hr h₁ ha⟩

theorem evaluate (h : Tells e) (node : Node) (v : View) : Tells (e.evaluate node v t) := by
  have hsee : Tells (e.see node.id v) := by
    unfold Engine.see
    split
    · exact h.congr rfl rfl rfl
    · exact h
  have hrules : (e.see node.id v).rules = e.rules := by
    unfold Engine.see
    split <;> rfl
  refine hsee.acts (evaluateAct_onLive _ _ _ _) ?_ (Engine.evaluate_acts e node v t)
  intro e₁ a hr h₁ ha
  rw [hrules] at hr
  cases ha with
  | offline rule r hrule hr' hm => exact h₁.judged (hr ▸ hrule) hr' _ _
  | value rule r vals x hrule hr' hv hx => exact h₁.judged (hr ▸ hrule) hr' _ _
  | gone rule r vals i hrule hr' hv hi hir hin hsub => exact h₁.judged (hr ▸ hrule) hr' _ _
  | ended rule i hrule hnone hi hir hin => exact h₁.finish hi _ _

theorem check (h : Tells e) (nodes : List CheckedNode) : Tells (e.check nodes t) := by
  refine h.acts (checkAct_onLive _ _ _) ?_ (Engine.check_acts e nodes t)
  intro e₁ a hr h₁ ha
  cases ha with
  | offline n last rule r hn hlast hrule hr' => exact h₁.judged (hr ▸ List.mem_of_find?_eq_some hrule) hr' _ _
  | ended n rule i hn hrule hnone hi hir hin => exact h₁.finish hi _ _
  | again n rule r i hn hrule hr' hi hir hin hs hoff => exact h₁.retell hi hs (hr ▸ hrule) hr'

/-- Every instance's rule is one of the engine's, so a revocation ends what was told told. -/
theorem forgotten (h : Tells e) (node : NodeId) : Tells (e.forgotten node t) := by
  refine h.acts (forgetAct_onLive _ _) ?_ (Engine.forgotten_acts e node t)
  intro e₁ a hr h₁ ha
  cases ha with
  | known r i hrule hi hin => exact h₁.finish hi _ _
  | lost i hrule hi hin =>
    have hknown := h₁.known i hi
    rw [Engine.ruleOf, hr, hrule] at hknown
    cases hknown

end Tells

/-! ### Edits of the rules and restarts -/

namespace Engine

/-- After an edit of the rules every instance's rule is there and on. -/
theorem ruleOf_pruned {e : Engine} {old : List Rule} {t : ℤ} {i : Inst} (h : (e.pruned old t).Has i) :
    ∃ r, e.ruleOf i.rule = some r ∧ r.off = false := by
  refine forInstances_filter (p := fun i => ∃ r, e.ruleOf i.rule = some r ∧ r.off = false) e.rules ?_ ?_ rfl h
  · intro e₁ i he₁ _
    have hfinish : ∀ r, (e₁.finish i r true t).rules = e.rules := fun r => by
      obtain ⟨ns, htouch, -⟩ := finish_touches e₁ i r true t
      exact htouch.rules.trans he₁
    split
    · split
      · exact hfinish _
      · exact he₁
    · exact hfinish _
  · intro e₁ i he₁ hi j hj
    split at hj
    · rename_i r hr
      split at hj
      · exact ⟨(has_finish hj).1, fun hid => absurd hid (has_finish hj).2⟩
      · rename_i hoff
        refine ⟨hj, fun hid => ⟨r, ?_, by simpa using hoff⟩⟩
        rw [ruleOf, ← he₁, show j.rule = i.rule from congrArg Ident.rule hid]
        exact hr
    · exact ⟨(has_finish hj).1, fun hid => absurd hid (has_finish hj).2⟩

end Engine

/-- Rules that repeat daily, put in force over what was told so far, keep it told in rounds. -/
theorem Reads.prune {e : Engine} (h : Reads e) (hdaily : ∀ r ∈ e.rules, r.repeatTime = DAY) (old : List Rule) (t : ℤ) :
    Tells (e.prune old t) := by
  have hacts := Engine.pruned_acts e old t
  have hrules : (e.pruned old t).rules = e.rules := hacts.rules (pruneAct_onLive _)
  have hreads : Reads (e.pruned old t) := by
    refine hacts.invariant (I := Reads) ?_ h
    intro e₁ a h₁ ha
    cases ha with
    | off r i hrule hoff hi => exact h₁.finish hi _ _ t
    | gone i info hrule hi => exact h₁.finish hi _ _ t
  have hpruned : Tells (e.pruned old t) := by
    refine ⟨hreads, fun i hi => ?_, hrules ▸ hdaily⟩
    obtain ⟨r, hr, -⟩ := Engine.ruleOf_pruned hi
    rw [Engine.ruleOf, hrules]
    exact Option.isSome_iff_exists.2 ⟨r, hr⟩
  exact hpruned.congr rfl rfl rfl

/-! ### Runs -/

theorem Tells.create (saved : List SavedRule) : Tells (Engine.create (buildRules saved)) where
  reads := fun _ => ⟨none, rfl, .closed none (by simp)⟩
  known := fun _ hi => (by cases hi)
  daily := fun _ => repeatTime_of_mem_buildRules

/-- Every call of the engine and every restart keeps the invariant. -/
theorem Tells.call {e : Engine} (h : Tells e) (c : Engine.Call) : Tells (e.call c) := by
  unfold Engine.call
  split
  · exact h.evaluate _ _
  · exact h.check _
  · exact h.congr rfl rfl rfl
  · exact h.congr rfl rfl rfl
  · rename_i saved _
    have hreads : Reads { e with rules := buildRules saved } := h.reads.congr rfl fun id => ⟨Inst.value, by simp⟩
    exact hreads.prune (fun _ => repeatTime_of_mem_buildRules) _ _
  · exact (h.forgotten _).congr rfl rfl rfl
  · rename_i saved _
    have hreads : Reads { e with rules := buildRules saved, instances := e.instances.saved } :=
      h.reads.congr rfl fun id => ⟨fun _ => none, Instances.get?_saved _ _⟩
    exact hreads.prune (fun _ => repeatTime_of_mem_buildRules) _ _

/-- The events told about an identity spell rounds, their marks at least a rule's repeat time apart: from the engine
made over no state, after any calls and restarts.  It ends inside a round exactly when the alert is firing and its
start was told; so a told alert that ended was told as resolved. -/
theorem told_in_rounds (saved : List SavedRule) (calls : List Engine.Call) (id : Ident) :
    let e := Runs.run Engine.call (Engine.create (buildRules saved)) calls
    (∀ r ∈ e.rules, r.repeatTime = DAY) ∧
      ∃ inside : Option (Rounds.Round Daily), Rounds.Spells Daily (e.toldAbout id) inside ∧
        (inside.isSome ↔ ∃ i, e.instances.get? id = some i ∧ i.state = .firing ∧ i.notified = true) := by
  intro e
  have h : Tells e := Runs.invariant (fun e c h => h.call c) (Tells.create saved) calls
  refine ⟨h.daily, ?_⟩
  obtain ⟨p, hread, hagree⟩ := h.reads id
  obtain ⟨inside, hspells, hlatest⟩ := Rounds.read_eq_some Daily hread
  refine ⟨inside, hspells, ?_⟩
  rw [← Option.isSome_map (f := Rounds.Round.latest), hlatest]
  revert hagree
  generalize e.instances.get? id = oi
  rintro (⟨_, hc⟩ | ⟨i, l, hs, hn, -⟩)
  · simp only [Option.isSome_none, Bool.false_eq_true, false_iff]
    rintro ⟨i, hi, hs, hn⟩
    rw [hc i hi hs] at hn
    cases hn
  · simp only [Option.isSome_some, true_iff]
    exact ⟨i, rfl, hs, hn⟩

end Servitals
