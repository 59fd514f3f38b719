import Servitals.Alerts

/-!
# What one step of the alert engine can do

Everything the entry points do to an instance goes through `retell`, `judge` and `finish`.  Each of them touches one
identity (`Touches`); `Retold` and `Judged` say all the first two can do to the instance there and what they log.
An entry point is a sequence of such acts (`Acts`), and `EvaluateAct`, `CheckAct`, `PruneAct` and `ForgetAct` say
which ones it can make: what every allowed act keeps, the entry point keeps (`Acts.invariant`).
-/

namespace Servitals

/-- Something happened to one identity: `ns` was logged about it, and nothing else changed but the history
variable. -/
structure Touches (id : Ident) (ns : List Note) (e e' : Engine) : Prop where
  rules : e'.rules = e.rules
  muteRules : e'.muteRules = e.muteRules
  muteNodes : e'.muteNodes = e.muteNodes
  running : e'.running = e.running
  notes : e'.notes = e.notes ++ ns
  others : ∀ id', id' ≠ id → e'.instances.get? id' = e.instances.get? id'
  about : ∀ n ∈ ns, n.event.ident = id

theorem Touches.refl (id : Ident) (e : Engine) : Touches id [] e e where
  rules := rfl
  muteRules := rfl
  muteNodes := rfl
  running := rfl
  notes := (List.append_nil _).symm
  others := fun _ _ => rfl
  about := fun _ h => absurd h List.not_mem_nil

theorem Touches.trans {id : Ident} {ns ns' : List Note} {e₁ e₂ e₃ : Engine} (h : Touches id ns e₁ e₂)
    (h' : Touches id ns' e₂ e₃) : Touches id (ns ++ ns') e₁ e₃ where
  rules := h'.rules.trans h.rules
  muteRules := h'.muteRules.trans h.muteRules
  muteNodes := h'.muteNodes.trans h.muteNodes
  running := h'.running.trans h.running
  notes := by rw [h'.notes, h.notes, List.append_assoc]
  others := fun id' hne => (h'.others id' hne).trans (h.others id' hne)
  about := fun n hn => (List.mem_append.1 hn).elim (h.about n) (h'.about n)

namespace Engine

theorem ident_eventOf (kind : Kind) (i : Inst) (r : RuleInfo) (t : ℤ) (b : Bool) :
    (eventOf kind i r t b).ident = i.ident := by
  simp only [Event.ident, eventOf, Inst.ident]
  split
  · rename_i h
    rw [Option.getD_none, (beq_iff_eq.1 h).symm]
  · rfl

@[simp]
theorem get?_put_self (e : Engine) (i : Inst) : (e.put i).instances.get? i.ident = some i := by
  rw [put, Instances.get?_put, if_pos rfl]

private theorem touches_put {id : Ident} (e : Engine) {i : Inst} (h : i.ident = id) : Touches id [] e (e.put i) where
  rules := rfl
  muteRules := rfl
  muteNodes := rfl
  running := rfl
  notes := (List.append_nil _).symm
  others := fun id' hne => by rw [put, Instances.get?_put, if_neg (by rw [h]; exact hne)]
  about := fun _ h => absurd h List.not_mem_nil

private theorem touches_del (e : Engine) (id : Ident) : Touches id [] e (e.del id) where
  rules := rfl
  muteRules := rfl
  muteNodes := rfl
  running := rfl
  notes := (List.append_nil _).symm
  others := fun id' hne => by rw [del, Instances.get?_del, if_neg hne]
  about := fun _ h => absurd h List.not_mem_nil

@[simp]
theorem get?_del_self (e : Engine) (id : Ident) : (e.del id).instances.get? id = none := by
  rw [del, Instances.get?_del, if_pos rfl]

private theorem touches_tell {id : Ident} (e : Engine) (kind : Kind) {i : Inst} (h : i.ident = id) (r : RuleInfo)
    (t : ℤ)
    (b : Bool) : Touches id [⟨eventOf kind i r t b, e.why kind i r t⟩] e (e.tell kind i r t b) where
  rules := rfl
  muteRules := rfl
  muteNodes := rfl
  running := rfl
  notes := rfl
  others := fun _ _ => rfl
  about := fun n hn => by
    rw [List.mem_singleton.1 hn, ident_eventOf, h]

/-- The end of an alert is told exactly when its start was. -/
theorem isNone_why_resolved (e : Engine) (i : Inst) (r : RuleInfo) (t : ℤ) :
    (e.why .resolved i r t).isNone = i.notified := by
  unfold why
  dsimp only
  split
  · rename_i h
    exact h.symm
  · rename_i h
    rw [eq_false_of_ne_true h]
    cases e.quiet i r t <;> rfl

private theorem touches_note {id : Ident} {ns : List Note} {e e' : Engine} (h : Touches id ns e e') (ms : List Move) :
    Touches id ns e { e' with moves := ms } :=
  { h with }

/-! ### Telling again -/

end Engine

/-- What `retell` can do to a firing instance. -/
inductive Retold (r : Rule) (t : ℤ) (i : Inst) : List Note → Inst → Prop
  | kept : Retold r t i [] i
  | late (n : Note) : i.notified = false → n.event.kind = .firing → n.event.time = t → n.quiet = none →
      Retold r t i [n] (i.notedAt true t)
  | again (n : Note) (l : ℤ) : i.notified = true → i.lastNotified = some l → r.repeatTime ≤ t - l →
      n.event.kind = .repeated → n.event.time = t → n.quiet = none →
      Retold r t i [n] (i.notedAt true t)

/-- Since when an identity is pending when its rule holds at `t`: an instance that is there keeps its time. -/
def sinceOf (oi : Option Inst) (t : ℤ) : ℤ :=
  match oi with
  | some i => if i.state = .ok then t else i.since
  | none => t

/-- What `judge` can do to an instance, from what is there before to what is there after. -/
inductive Judged (r : Rule) (value : Option ℚ) (t : ℤ) : Option Inst → List Note → Option Inst → Prop
  | absent : r.holds value = false → Judged r value t none [] none
  | lapses (i : Inst) : i.state ≠ .firing → r.holds value = false → Judged r value t (some i) [] none
  | waits (oi : Option Inst) (i' : Inst) : (∀ i, oi = some i → i.state ≠ .firing) → r.holds value = true →
      i'.state = .pending → i'.since = sinceOf oi t → Judged r value t oi [] (some i')
  | fires (oi : Option Inst) (i' : Inst) (n : Note) : (∀ i, oi = some i → i.state ≠ .firing) →
      r.holds value = true → i'.state = .firing → i'.firedAt = some t → r.forTime ≤ t - sinceOf oi t →
      n.event.kind = .firing → n.event.time = t → i'.notified = n.quiet.isNone →
      (i'.notified = true → i'.lastNotified = some t) → Judged r value t oi [n] (some i')
  | ends (i : Inst) (n : Note) : i.state = .firing → r.isOver value = true → n.event.kind = .resolved →
      n.quiet.isNone = i.notified → Judged r value t (some i) [n] none
  | stays (i i' : Inst) (name : JsString) (ns : List Note) : i.state = .firing → r.isOver value = false →
      Retold r t (i.seen value name) ns i' → Judged r value t (some i) ns (some i')

namespace Engine

/-! ### The effect of each step -/

theorem ident_started (i : Inst) (t : ℤ) : (i.started t).ident = i.ident := by
  unfold Inst.started
  split <;> rfl

private theorem since_started (i : Inst) (t : ℤ) : (i.started t).since = sinceOf (some i) t := by
  unfold Inst.started sinceOf
  split <;> simp_all

private theorem state_started {i : Inst} (h : i.state ≠ .firing) (t : ℤ) : (i.started t).state = .pending := by
  unfold Inst.started
  cases hs : i.state with
  | ok => rfl
  | pending => simpa using hs
  | firing => exact absurd hs h

theorem retell_touches (e : Engine) {i : Inst} (hi : e.instances.get? i.ident = some i) (r : Rule) (t : ℤ) :
    ∃ ns i', Touches i.ident ns e (e.retell i r t) ∧ (e.retell i r t).instances.get? i.ident = some i' ∧
      Retold r t i ns i' := by
  unfold retell
  split
  · rename_i h
    simp only [Bool.and_eq_true, Bool.not_eq_true', Option.isNone_iff_eq_none] at h
    exact ⟨_, _, (touches_tell e .firing rfl r.info t false).trans (touches_put _ rfl),
      get?_put_self _ (i.notedAt true t), .late _ h.1 rfl rfl h.2⟩
  · split
    · rename_i h
      simp only [Bool.and_eq_true, Option.isNone_iff_eq_none, Option.any_eq_true, decide_eq_true_eq] at h
      obtain ⟨⟨hn, l, hl, hrep⟩, hq⟩ := h
      exact ⟨_, _, (touches_tell e .repeated rfl r.info t false).trans (touches_put _ rfl),
        get?_put_self _ (i.notedAt true t), .again _ l hn hl hrep rfl rfl hq⟩
    · exact ⟨[], i, .refl _ e, hi, .kept⟩

/-- What `ripen` does to an instance that is not firing, in the terms of `Judged`. -/
private theorem ripen_touches (e : Engine) {i : Inst} (hs : i.state ≠ .firing) {r : Rule} {value : Option ℚ}
    (hv : r.holds value = true) (t : ℤ) {oi : Option Inst} (ho : ∀ j, oi = some j → j.state ≠ .firing)
    (hsince : sinceOf (some i) t = sinceOf oi t) :
    ∃ ns, Touches i.ident ns e (e.ripen i r t) ∧
      Judged r value t oi ns ((e.ripen i r t).instances.get? i.ident) := by
  have hid : (i.started t).ident = i.ident := ident_started i t
  have hsince' : (i.started t).since = sinceOf oi t := (since_started i t).trans hsince
  unfold ripen
  dsimp only
  split
  · rename_i hfor
    have hfid : ((i.started t).fired r t).ident = i.ident := hid
    generalize hj : (i.started t).fired r t = j at hfid
    have hjs : j.state = .firing ∧ j.firedAt = some t := by rw [← hj]; exact ⟨rfl, rfl⟩
    refine ⟨_, ((touches_put e hid).trans (touches_put _ hfid)).trans
      ((touches_tell _ .firing hfid r.info t false).trans (touches_put _ (by exact hfid))), ?_⟩
    rw [← hfid]
    generalize ((e.put (i.started t)).put j).why .firing j r.info t = q
    rw [show j.ident = (j.notedAt q.isNone t).ident from rfl, get?_put_self]
    exact .fires oi _ _ ho hv hjs.1 hjs.2 (hsince' ▸ hfor) rfl rfl rfl (fun h => if_pos h)
  · refine ⟨[], touches_put e hid, ?_⟩
    rw [← hid, get?_put_self]
    exact .waits oi _ ho hv (state_started hs t) hsince'

private theorem judgeInst_touches (e : Engine) {i : Inst} (hs : i.state ≠ .firing) {r : Rule} {value : Option ℚ}
    (t : ℤ) {oi : Option Inst} (ho : ∀ j, oi = some j → j.state ≠ .firing)
    (hsince : sinceOf (some i) t = sinceOf oi t) (hnone : oi = none → r.holds value = true) :
    ∃ ns, Touches i.ident ns e (e.judgeInst i r value t) ∧
      Judged r value t oi ns ((e.judgeInst i r value t).instances.get? i.ident) := by
  unfold judgeInst
  dsimp only
  rw [if_neg hs]
  split
  · rename_i hv
    obtain ⟨ns, htouch, hj⟩ := ripen_touches (e.put i) hs hv t ho hsince
    exact ⟨ns, (touches_put e rfl).trans htouch, hj⟩
  · rename_i hv
    refine ⟨[], (touches_put e rfl).trans (touches_del _ _), ?_⟩
    rw [get?_del_self]
    cases oi with
    | none => exact absurd (hnone rfl) hv
    | some j => exact .lapses j (ho j rfl) (by simpa using hv)

/-- All that `judge` can do. -/
private theorem judge_touches (e : Engine) (r : Rule) (node : Node) (sub : JsString) (value : Option ℚ) (t : ℤ) :
    ∃ ns, Touches ⟨r.id, node.id, sub⟩ ns e (e.judge r node sub value t) ∧
      Judged r value t (e.instances.get? ⟨r.id, node.id, sub⟩) ns
        ((e.judge r node sub value t).instances.get? ⟨r.id, node.id, sub⟩) := by
  unfold judge
  cases hi : e.instances.get? ⟨r.id, node.id, sub⟩ with
  | none =>
    dsimp only
    split
    · rename_i hv
      exact judgeInst_touches e (i := (fresh r node sub value t).seen value node.name) (by simp [fresh, Inst.seen])
        t (by simp) rfl (fun _ => hv)
    · rename_i hv
      refine ⟨[], .refl _ e, ?_⟩
      rw [hi]
      exact .absent (by simpa using hv)
  | some i =>
    have hid : i.ident = ⟨r.id, node.id, sub⟩ := Instances.ident_of_get? hi
    rw [← hid, show i.ident = (i.seen value node.name).ident from rfl]
    dsimp only
    by_cases hs : i.state = .firing
    · have hput : (e.put (i.seen value node.name)).instances.get? (i.seen value node.name).ident =
          some (i.seen value node.name) := get?_put_self _ _
      unfold judgeInst
      dsimp only
      rw [if_pos (show (i.seen value node.name).state = .firing from hs)]
      split
      · rename_i hover
        refine ⟨_, (touches_put e rfl).trans ((touches_tell _ .resolved rfl r.info t false).trans
          (touches_del _ _)), ?_⟩
        rw [get?_del_self]
        exact .ends i _ hs hover rfl (isNone_why_resolved _ _ _ _)
      · rename_i hover
        obtain ⟨ns, i', htouch, hget, hretold⟩ := retell_touches (e.put (i.seen value node.name)) hput r t
        refine ⟨ns, (touches_put e rfl).trans htouch, ?_⟩
        rw [hget]
        exact .stays i i' node.name ns hs (by simpa using hover) hretold
    · exact judgeInst_touches e (i := i.seen value node.name) hs t (by rintro j ⟨⟩; exact hs) rfl (by simp)

theorem judged_touches (e : Engine) (r : Rule) (node : Node) (sub : JsString) (value : Option ℚ) (t : ℤ) :
    ∃ ns, Touches ⟨r.id, node.id, sub⟩ ns e (e.judged r node sub value t) ∧
      Judged r value t (e.instances.get? ⟨r.id, node.id, sub⟩) ns
        ((e.judged r node sub value t).instances.get? ⟨r.id, node.id, sub⟩) := by
  obtain ⟨ns, htouch, hj⟩ := judge_touches e r node sub value t
  exact ⟨ns, touches_note htouch _, hj⟩

theorem drop_touches (e : Engine) (i : Inst) (t : ℤ) : Touches i.ident [] e (e.drop i t) :=
  touches_note (touches_del e i.ident) _

@[simp]
theorem get?_drop_self (e : Engine) (i : Inst) (t : ℤ) : (e.drop i t).instances.get? i.ident = none :=
  get?_del_self e i.ident

/-- An alert that ends logs its end if it was firing. -/
theorem finish_touches (e : Engine) (i : Inst) (r : RuleInfo) (b : Bool) (t : ℤ) :
    ∃ ns, Touches i.ident ns e (e.finish i r b t) ∧
      (i.state = .firing ∧ ns = [⟨eventOf .resolved i r t b, e.why .resolved i r t⟩] ∨
        i.state ≠ .firing ∧ ns = []) := by
  unfold finish
  split
  · rename_i h
    exact ⟨_, (touches_tell e .resolved rfl r t b).trans (drop_touches _ i t), Or.inl ⟨h, rfl⟩⟩
  · rename_i h
    exact ⟨[], drop_touches e i t, Or.inr ⟨h, rfl⟩⟩

@[simp]
theorem get?_finish_self (e : Engine) (i : Inst) (r : RuleInfo) (b : Bool) (t : ℤ) :
    (e.finish i r b t).instances.get? i.ident = none :=
  get?_drop_self _ i t

end Engine

/-! ### Entry points as sequences of acts -/

/-- What an entry point does to one instance. -/
inductive Act
  | judged (r : Rule) (node : Node) (sub : JsString) (value : Option ℚ)
  | retell (i : Inst) (r : Rule)
  | finish (i : Inst) (r : RuleInfo) (endedByRule : Bool)
  | drop (i : Inst)

def Engine.act (e : Engine) (t : ℤ) : Act → Engine
  | .judged r node sub value => e.judged r node sub value t
  | .retell i r => e.retell i r t
  | .finish i r b => e.finish i r b t
  | .drop i => e.drop i t

/-- The instance is in the engine as it stands. -/
def Engine.Has (e : Engine) (i : Inst) : Prop := e.instances.get? i.ident = some i

/-- `e'` comes from `e` by acts at `t` that are allowed when they are made. -/
inductive Acts (allowed : Engine → Act → Prop) (t : ℤ) (e : Engine) : Engine → Prop
  | refl : Acts allowed t e e
  | act (e' : Engine) (a : Act) : Acts allowed t e e' → allowed e' a → Acts allowed t e (e'.act t a)

/-- An allowed act on an instance is on one that is there. -/
def OnLive (allowed : Engine → Act → Prop) : Prop :=
  ∀ e a, allowed e a → match a with
    | .judged _ _ _ _ => True
    | .retell i _ => e.Has i
    | .finish i _ _ => e.Has i
    | .drop i => e.Has i

/-- The identity an act is about. -/
def Act.ident : Act → Ident
  | .judged r node sub _ => ⟨r.id, node.id, sub⟩
  | .retell i _ => i.ident
  | .finish i _ _ => i.ident
  | .drop i => i.ident

/-- An allowed act touches the identity it is about. -/
theorem Engine.act_touches {e : Engine} {t : ℤ} {a : Act} {allowed : Engine → Act → Prop} (hlive : OnLive allowed)
    (ha : allowed e a) : ∃ ns, Touches a.ident ns e (e.act t a) := by
  cases a with
  | judged r node sub value =>
    obtain ⟨ns, htouch, -⟩ := Engine.judged_touches e r node sub value t
    exact ⟨ns, htouch⟩
  | retell i r =>
    obtain ⟨ns, i', htouch, -⟩ := Engine.retell_touches e (hlive e _ ha) r t
    exact ⟨ns, htouch⟩
  | finish i r b =>
    obtain ⟨ns, htouch, -⟩ := Engine.finish_touches e i r b t
    exact ⟨ns, htouch⟩
  | drop i => exact ⟨[], Engine.drop_touches e i t⟩

namespace Acts

variable {allowed : Engine → Act → Prop} {t : ℤ} {e e' e'' : Engine}

theorem single {a : Act} (h : allowed e a) : Acts allowed t e (e.act t a) := .act e a .refl h

theorem trans (h : Acts allowed t e e') (h' : Acts allowed t e' e'') : Acts allowed t e e'' := by
  induction h' with
  | refl => exact h
  | act e₂ a _ ha ih => exact .act e₂ a ih ha

/-- What every allowed act keeps holds after them all. -/
theorem invariant {I : Engine → Prop} (hact : ∀ e a, I e → allowed e a → I (e.act t a)) (h : Acts allowed t e e')
    (he : I e) : I e' := by
  induction h with
  | refl => exact he
  | act e₂ a _ ha ih => exact hact e₂ a ih ha

theorem rules_act (hlive : OnLive allowed) {a : Act} (h : allowed e a) : (e.act t a).rules = e.rules := by
  obtain ⟨ns, htouch⟩ := Engine.act_touches hlive h (t := t)
  exact htouch.rules

theorem rules (hlive : OnLive allowed) (h : Acts allowed t e e') : e'.rules = e.rules :=
  h.invariant (I := fun e₂ => e₂.rules = e.rules) (fun _ _ h ha => (rules_act hlive ha).trans h) rfl

theorem foldl (hlive : OnLive allowed) {α : Type*} {f : Engine → α → Engine} {l : List α} {rs : List Rule}
    (he : e.rules = rs) (hf : ∀ e x, x ∈ l → e.rules = rs → Acts allowed t e (f e x)) :
    Acts allowed t e (l.foldl f e) := by
  induction l generalizing e with
  | nil => exact .refl
  | cons x l ih =>
    have h₁ := hf e x List.mem_cons_self he
    exact h₁.trans (ih ((h₁.rules hlive).trans he) fun e y hy => hf e y (List.mem_cons_of_mem _ hy))

theorem forInstances (hlive : OnLive allowed) {body : Engine → Inst → Engine} {rs : List Rule} (he : e.rules = rs)
    (hb : ∀ e i, e.rules = rs → e.Has i → Acts allowed t e (body e i)) : Acts allowed t e (e.forInstances body) := by
  refine foldl hlive he fun e i _ he => ?_
  split
  · rename_i j hj
    exact hb e j he (by rw [Engine.Has, Instances.ident_of_get? hj]; exact hj)
  · exact .refl

/-- What no allowed act is about stays as it is. -/
theorem others (hlive : OnLive allowed) {id : Ident} (hid : ∀ e a, allowed e a → id ≠ a.ident)
    (h : Acts allowed t e e') : e'.instances.get? id = e.instances.get? id := by
  refine h.invariant (I := fun e₁ => e₁.instances.get? id = e.instances.get? id) (fun e₁ a h₁ ha => ?_) rfl
  obtain ⟨ns, htouch⟩ := Engine.act_touches hlive ha (t := t)
  exact (htouch.others id (hid e₁ a ha)).trans h₁

/-- What the acts logged: each note by an act on what it is about, made when the earlier ones were. -/
theorem notes (hlive : OnLive allowed) (h : Acts allowed t e e') :
    ∃ ns, e'.notes = e.notes ++ ns ∧ ∀ n ∈ ns, ∃ e₁ a ns₁, Acts allowed t e e₁ ∧ allowed e₁ a ∧
      Touches a.ident ns₁ e₁ (e₁.act t a) ∧ n ∈ ns₁ := by
  induction h with
  | refl => exact ⟨[], by simp, by simp⟩
  | act e₁ a h₁ ha ih =>
    obtain ⟨ns, hns, hall⟩ := ih
    obtain ⟨ns₁, htouch⟩ := Engine.act_touches hlive ha (t := t)
    refine ⟨ns ++ ns₁, by rw [htouch.notes, hns, List.append_assoc], fun n hn => ?_⟩
    exact (List.mem_append.1 hn).elim (hall n) fun hn => ⟨e₁, a, ns₁, h₁, ha, htouch, hn⟩

end Acts

/-- What a push can do: judge a value, judge an instance whose sub is gone from a group that is present, or end an
instance whose rule does not hold for the node. -/
inductive EvaluateAct (rules : List Rule) (node : Node) (v : View) (run : List JsString) : Engine → Act → Prop
  | offline (e : Engine) (rule r : Rule) : rule ∈ rules → forNode rule node = some r → r.metric = .offline →
      EvaluateAct rules node v run e (.judged r node [] (some 0))
  | value (e : Engine) (rule r : Rule) (vals : List SubValue) (x : SubValue) : rule ∈ rules →
      forNode rule node = some r → valuesOf r.metric v run = some vals → x ∈ Engine.watched r vals →
      EvaluateAct rules node v run e (.judged r node x.sub (some x.value))
  | gone (e : Engine) (rule r : Rule) (vals : List SubValue) (i : Inst) : rule ∈ rules →
      forNode rule node = some r → valuesOf r.metric v run = some vals → e.Has i → i.rule = r.id → i.node = node.id →
      i.sub ∉ (Engine.watched r vals).map SubValue.sub → EvaluateAct rules node v run e (.judged r node i.sub none)
  | ended (e : Engine) (rule : Rule) (i : Inst) : rule ∈ rules → forNode rule node = none → e.Has i →
      i.rule = rule.id → i.node = node.id → EvaluateAct rules node v run e (.finish i rule.info true)

/-- What a minute's check can do: judge a node's offline alert, end an instance whose rule does not hold for its
node, or tell a firing alert again. -/
inductive CheckAct (rules : List Rule) (nodes : List CheckedNode) (t : ℤ) : Engine → Act → Prop
  | offline (e : Engine) (n : CheckedNode) (last : ℤ) (rule r : Rule) : n ∈ nodes → n.lastPush = some last →
      rules.find? (fun r => r.metric = .offline) = some rule → forNode rule n.toNode = some r →
      last ≠ 0 → CheckAct rules nodes t e
        (.judged r n.toNode [] (some (if limitOf n.interval ≤ t - last then 1 else 0)))
  | ended (e : Engine) (n : CheckedNode) (rule : Rule) (i : Inst) : n ∈ nodes → rule ∈ rules →
      forNode rule n.toNode = none → e.Has i → i.rule = rule.id → i.node = n.id →
      (n.lastPush.filter (· != 0)).isSome = true → CheckAct rules nodes t e (.finish i rule.info true)
  | again (e : Engine) (n : CheckedNode) (rule r : Rule) (i : Inst) : n ∈ nodes → rule ∈ rules →
      forNode rule n.toNode = some r → e.Has i → i.rule = rule.id → i.node = n.id → i.state = .firing →
      i.rule ≠ .default .offline → CheckAct rules nodes t e (.retell i r)

/-- What an edit of the rules or a start can do: end an instance whose rule is off or gone. -/
inductive PruneAct (rules : List Rule) : Engine → Act → Prop
  | off (e : Engine) (r : Rule) (i : Inst) : rules.find? (fun r => r.id = i.rule) = some r → r.off = true →
      e.Has i → PruneAct rules e (.finish i r.info true)
  | gone (e : Engine) (i : Inst) (info : RuleInfo) : rules.find? (fun r => r.id = i.rule) = none → e.Has i →
      PruneAct rules e (.finish i info true)

/-- What a revocation can do: end an instance of the node. -/
inductive ForgetAct (rules : List Rule) (node : NodeId) : Engine → Act → Prop
  | known (e : Engine) (r : Rule) (i : Inst) : rules.find? (fun r => r.id = i.rule) = some r → e.Has i →
      i.node = node → ForgetAct rules node e (.finish i r.info false)
  | lost (e : Engine) (i : Inst) : rules.find? (fun r => r.id = i.rule) = none → e.Has i → i.node = node →
      ForgetAct rules node e (.drop i)

theorem evaluateAct_onLive (rules : List Rule) (node : Node) (v : View) (run : List JsString) :
    OnLive (EvaluateAct rules node v run) := by
  rintro e a (_ | _ | _ | ⟨_, _, _, _, hi⟩)
  · trivial
  · trivial
  · trivial
  · exact hi

theorem checkAct_onLive (rules : List Rule) (nodes : List CheckedNode) (t : ℤ) : OnLive (CheckAct rules nodes t) := by
  rintro e a (_ | ⟨_, _, _, _, _, _, hi⟩ | ⟨_, _, _, _, _, _, _, hi⟩)
  · trivial
  · exact hi
  · exact hi

theorem pruneAct_onLive (rules : List Rule) : OnLive (PruneAct rules) := by
  rintro e a (⟨_, _, _, _, hi⟩ | ⟨_, _, _, hi⟩)
  · exact hi
  · exact hi

theorem forgetAct_onLive (rules : List Rule) (node : NodeId) : OnLive (ForgetAct rules node) := by
  rintro e a (⟨_, _, _, hi⟩ | ⟨_, _, hi⟩)
  · exact hi
  · exact hi

namespace Engine

theorem ruleOf_eq_some {e : Engine} {id : RuleId} {r : Rule} (h : e.ruleOf id = some r) : r ∈ e.rules ∧ r.id = id :=
  ⟨List.mem_of_find?_eq_some h, by simpa using List.find?_some h⟩

/-- The rules of a push, one after another. -/
theorem evaluateRules_acts (e : Engine) (rules : List Rule) (node : Node) (v : View) (run : List JsString) (t : ℤ) :
    Acts (EvaluateAct rules node v run) t e (rules.foldl (evaluateRule node v run t) e) := by
  have hlive := evaluateAct_onLive rules node v run
  refine Acts.foldl hlive (Eq.refl e.rules) fun e₁ rule hrule he₁ => ?_
  unfold evaluateRule
  split
  · rename_i hnone
    refine Acts.forInstances hlive he₁ fun e₂ i _ hi => ?_
    split
    · rename_i h
      exact Acts.single (EvaluateAct.ended e₂ rule i hrule hnone hi h.1 h.2)
    · exact .refl
  · rename_i r hr
    split
    · rename_i hoff
      exact Acts.single (EvaluateAct.offline e₁ rule r hrule hr hoff)
    · split
      · exact .refl
      · rename_i vals hvals
        have h₁ : Acts (EvaluateAct rules node v run) t e₁
            ((watched r vals).foldl (fun e x => e.judged r node x.sub (some x.value) t) e₁) :=
          Acts.foldl hlive he₁ fun e₂ x hx _ => Acts.single (EvaluateAct.value e₂ rule r vals x hrule hr hvals hx)
        refine h₁.trans (Acts.forInstances hlive ((h₁.rules hlive).trans he₁) fun e₂ i _ hi => ?_)
        split
        · rename_i h
          exact Acts.single (EvaluateAct.gone e₂ rule r vals i hrule hr hvals hi h.1 h.2.1 (by simpa using h.2.2))
        · exact .refl

theorem evaluate_acts (e : Engine) (node : Node) (v : View) (t : ℤ) :
    Acts (EvaluateAct e.rules node v (seenRunning (e.runningOf node.id) v)) t (e.see node.id v)
      (e.evaluate node v t) :=
  evaluateRules_acts _ _ _ _ _ _

theorem check_acts (e : Engine) (nodes : List CheckedNode) (t : ℤ) :
    Acts (CheckAct e.rules nodes t) t e (e.check nodes t) := by
  have hlive := checkAct_onLive e.rules nodes t
  refine Acts.foldl hlive rfl fun e₁ n hn he₁ => ?_
  unfold checkNode
  split
  · exact .refl
  · rename_i last hpushed
    obtain ⟨hlast, hzero⟩ := Option.filter_eq_some_iff.1 hpushed
    have hsome : (n.lastPush.filter (· != 0)).isSome = true := by rw [hpushed, Option.isSome_some]
    dsimp only
    have hothers : ∀ e' stale, Acts (CheckAct e.rules nodes t) t e₁ e' →
        Acts (CheckAct e.rules nodes t) t e₁ (e'.checkOthers n.toNode stale t) := by
      intro e' stale h₁
      refine h₁.trans (Acts.forInstances hlive ((h₁.rules hlive).trans he₁) fun e₂ i he₂ hi => ?_)
      split
      · exact .refl
      · rename_i h
        simp only [not_or, not_not] at h
        split
        · exact .refl
        · rename_i rule hrule
          obtain ⟨hmem, hid⟩ := ruleOf_eq_some hrule
          rw [he₂] at hmem
          split
          · rename_i hnone
            exact Acts.single (CheckAct.ended e₂ n rule i hn hmem hnone hi hid.symm h.1 hsome)
          · rename_i r hr
            split
            · exact .refl
            · exact Acts.single (CheckAct.again e₂ n rule r i hn hmem hr hi hid.symm h.1 h.2.1 h.2.2)
    apply hothers
    rw [he₁]
    split
    · exact .refl
    · rename_i off hoff
      split
      · rename_i r hr
        simp only [decide_eq_true_eq]
        exact Acts.single (CheckAct.offline e₁ n last off r hn hlast hoff hr (bne_iff_ne.1 hzero))
      · rename_i hnone
        refine Acts.forInstances hlive he₁ fun e₂ i _ hi => ?_
        split
        · rename_i h
          exact Acts.single (CheckAct.ended e₂ n off i hn (List.mem_of_find?_eq_some hoff) hnone hi h.1 h.2 hsome)
        · exact .refl

theorem pruned_acts (e : Engine) (old : List Rule) (t : ℤ) :
    Acts (PruneAct e.rules) t e (e.pruned old t) := by
  refine Acts.forInstances (pruneAct_onLive e.rules) rfl fun e₁ i he₁ hi => ?_
  split
  · rename_i r hr
    split
    · rename_i hoff
      exact Acts.single (PruneAct.off e₁ r i (he₁ ▸ hr) hoff hi)
    · exact .refl
  · rename_i hr
    exact Acts.single (PruneAct.gone e₁ i _ (he₁ ▸ hr) hi)

theorem forgotten_acts (e : Engine) (node : NodeId) (t : ℤ) :
    Acts (ForgetAct e.rules node) t e (e.forgotten node t) := by
  refine Acts.forInstances (forgetAct_onLive e.rules node) rfl fun e₁ i he₁ hi => ?_
  split
  · exact .refl
  · rename_i hnode
    split
    · rename_i r hr
      exact Acts.single (ForgetAct.known e₁ r i (he₁ ▸ hr) hi (not_not.1 hnode))
    · rename_i hr
      exact Acts.single (ForgetAct.lost e₁ i (he₁ ▸ hr) hi (not_not.1 hnode))

/-! ### What a loop over the instances leaves -/

/-- A loop over the instances that ends each one `p` does not hold of leaves only those it holds of. -/
theorem forInstances_filter {p : Inst → Prop} (rs : List Rule) {body : Engine → Inst → Engine}
    (hrules : ∀ e i, e.rules = rs → e.Has i → (body e i).rules = rs)
    (hbody : ∀ e i, e.rules = rs → e.Has i → ∀ j, (body e i).Has j → e.Has j ∧ (j.ident = i.ident → p j))
    {e : Engine} (he : e.rules = rs) {j : Inst} (hj : (e.forInstances body).Has j) : p j := by
  have hfold : ∀ (l : List Inst) (e₁ : Engine), e₁.rules = rs → (∀ j, e₁.Has j → j ∈ l ∨ p j) → ∀ j,
      (l.foldl (fun e i => match e.instances.get? i.ident with
        | some i => body e i
        | none => e) e₁).Has j → p j := by
    intro l
    induction l with
    | nil => exact fun e₁ _ hall j hj => (hall j hj).elim (fun h => absurd h List.not_mem_nil) id
    | cons i l ih =>
      intro e₁ he₁ hall
      rw [List.foldl_cons]
      split
      · rename_i i' hi'
        have hid : i'.ident = i.ident := Instances.ident_of_get? hi'
        have hlive : e₁.Has i' := by rw [Has, hid]; exact hi'
        refine ih _ (hrules e₁ i' he₁ hlive) fun j hj => ?_
        obtain ⟨hj₁, hp⟩ := hbody e₁ i' he₁ hlive j hj
        rcases hall j hj₁ with hmem | hpj
        · rcases List.mem_cons.1 hmem with rfl | hmem
          · exact Or.inr (hp hid.symm)
          · exact Or.inl hmem
        · exact Or.inr hpj
      · rename_i hnone
        refine ih _ he₁ fun j hj => ?_
        rcases hall j hj with hmem | hpj
        · rcases List.mem_cons.1 hmem with rfl | hmem
          · rw [Has, hnone] at hj
            cases hj
          · exact Or.inl hmem
        · exact Or.inr hpj
  refine hfold e.instances.list e he (fun j hj => Or.inl ?_) j hj
  exact Instances.mem_list_iff.2 hj

theorem has_finish {e : Engine} {i j : Inst} {r : RuleInfo} {b : Bool} {t : ℤ} (h : (e.finish i r b t).Has j) :
    e.Has j ∧ j.ident ≠ i.ident := by
  obtain ⟨ns, htouch, -⟩ := finish_touches e i r b t
  by_cases hid : j.ident = i.ident
  · rw [Has, hid, get?_finish_self] at h
    cases h
  · rw [Has, htouch.others _ hid] at h
    exact ⟨h, hid⟩

/-- A rule that does not hold for the node leaves no instance there. -/
theorem not_has_endAll (e : Engine) (r : Rule) (node : NodeId) (t : ℤ) {i : Inst} (hi : (e.endAll r node t).Has i) :
    ¬ (i.rule = r.id ∧ i.node = node) := by
  refine forInstances_filter (p := fun i => ¬ (i.rule = r.id ∧ i.node = node)) e.rules ?_ ?_ rfl hi
  · intro e₁ i he₁ _
    split
    · obtain ⟨ns, htouch, -⟩ := finish_touches e₁ i r.info true t
      exact htouch.rules.trans he₁
    · exact he₁
  · intro e₁ i _ _ j hj
    split at hj
    · exact ⟨(has_finish hj).1, fun hid => absurd hid (has_finish hj).2⟩
    · rename_i hother
      refine ⟨hj, fun hid hjr => hother ?_⟩
      rw [← show j.rule = i.rule from congrArg Ident.rule hid, ← show j.node = i.node from congrArg Ident.node hid]
      exact hjr

end Engine

end Servitals
