import Servitals.AlertSteps
import Servitals.Lib.Runs

/-!
# What the alert engine judges

The history variable `moves` has every judgement and every end of an instance.  For each identity its entries lead
from no instance to the state there is now (`Linked`).  The invariant (`Held`): an instance pending since `s` has an
entry at `s` from which on every judged value met its rule (`HeldSince`), and so had every instance that turned
firing, the rule's time before it did.

`Ground` lists the occasions on which a call makes an entry, with what the push, the check or the edit had.
-/

namespace Servitals

/-- The entries lead from the state `s` to the state `s'`. -/
def Linked : Option AlertState → List Move → Option AlertState → Prop
  | s, [], s' => s = s'
  | s, m :: ms, s' => m.before = s ∧ Linked m.after ms s'

private theorem Linked.snoc {s s' : Option AlertState} {ms : List Move} {m : Move} (h : Linked s ms s')
    (hm : m.before = s') :
    Linked s (ms ++ [m]) m.after := by
  induction ms generalizing s with
  | nil => exact ⟨hm.trans (Eq.symm h), rfl⟩
  | cons m' ms ih => exact ⟨h.1, ih h.2⟩

/-- The entry is of a judgement whose value met the rule. -/
def Move.held (m : Move) : Prop := ∃ r value, m.cause = .judged r value ∧ r.holds value = true

/-- The entry is of an instance that turned firing. -/
def Move.turnsFiring (m : Move) : Prop := m.before ≠ some .firing ∧ m.after = some .firing

/-- The identity was judged at `s`, and from then on every value judged met its rule. -/
def HeldSince (ms : List Move) (id : Ident) (s : ℤ) : Prop :=
  ∃ pre m mid, ms = pre ++ m :: mid ∧ m.ident = id ∧ m.time = s ∧ ∀ m' ∈ m :: mid, m'.ident = id → m'.held

theorem HeldSince.start {ms : List Move} {m : Move} (h : m.held) : HeldSince (ms ++ [m]) m.ident m.time :=
  ⟨ms, m, [], rfl, rfl, rfl, fun _ hm' _ => List.mem_singleton.1 hm' ▸ h⟩

private theorem HeldSince.snoc {ms : List Move} {id : Ident} {s : ℤ} (h : HeldSince ms id s) {m : Move}
    (hm : m.ident = id → m.held) : HeldSince (ms ++ [m]) id s := by
  obtain ⟨pre, m₁, mid, rfl, hid, htime, hall⟩ := h
  refine ⟨pre, m₁, mid ++ [m], by simp, hid, htime, fun m' hm' => ?_⟩
  rw [← List.cons_append, List.mem_append] at hm'
  rcases hm' with hm' | hm'
  · exact hall m' hm'
  · rw [List.mem_singleton.1 hm']
    exact hm

/-- The instance that turned firing was held for its rule's time. -/
def Move.ripe (pre : List Move) (m : Move) : Prop :=
  ∃ r value s, m.cause = .judged r value ∧ s ≤ m.time - r.forTime ∧ HeldSince (pre ++ [m]) m.ident s

/-- How far an instance is: its state, and since when it waits. -/
def Inst.pace (i : Inst) : AlertState × ℤ := (i.state, i.since)

structure Held (e : Engine) : Prop where
  linked : ∀ id, Linked none (e.moves.filter fun m => m.ident = id) (e.stateOf id)
  pending : ∀ id i, e.instances.get? id = some i → i.state = .pending → HeldSince e.moves id i.since
  fired : ∀ pre m post, e.moves = pre ++ m :: post → m.turnsFiring → m.ripe pre

/-! ### What a judgement says of the states before and after -/

namespace Judged

variable {r : Rule} {value : Option ℚ} {t : ℤ} {oi oi' : Option Inst} {ns : List Note}

/-- An instance that waits after a judgement: its value met the rule, and it waited before or starts. -/
theorem waiting (h : Judged r value t oi ns oi') {i : Inst} (hi : oi' = some i) (hs : i.state = .pending) :
    r.holds value = true ∧ (∀ i, oi = some i → i.state ≠ .firing) ∧ i.since = sinceOf oi t := by
  have hfiring : i.state ≠ .firing := by
    rw [hs]
    decide
  cases h with
  | absent => cases hi
  | lapses => cases hi
  | waits _ _ ho hv _ hsince => cases hi; exact ⟨hv, ho, hsince⟩
  | fires _ _ _ _ _ hf => cases hi; exact absurd hf hfiring
  | ends => cases hi
  | stays _ _ _ _ hf _ hret => cases hi; cases hret <;> exact absurd hf hfiring

/-- An instance that a judgement turned firing: its value met the rule, and it waited for the rule's time. -/
theorem turned (h : Judged r value t oi ns oi') (hb : oi.map Inst.state ≠ some .firing)
    (ha : oi'.map Inst.state = some .firing) :
    r.holds value = true ∧ (∀ i, oi = some i → i.state ≠ .firing) ∧ r.forTime ≤ t - sinceOf oi t := by
  cases h with
  | absent => cases ha
  | lapses => cases ha
  | waits _ i' _ _ hs => exact absurd ((Option.some.inj ha).symm.trans hs) (by decide)
  | fires _ _ _ ho hv _ _ hfor => exact ⟨hv, ho, hfor⟩
  | ends => cases ha
  | stays i _ _ _ hf => exact absurd (congrArg some hf) hb

/-- A judgement that ends a firing instance found it over. -/
theorem left (h : Judged r value t oi ns oi') (hb : oi.map Inst.state = some .firing)
    (ha : oi'.map Inst.state ≠ some .firing) : r.isOver value = true := by
  cases h with
  | absent => cases hb
  | lapses _ hs => exact absurd (Option.some.inj hb) hs
  | waits oi _ ho =>
    obtain ⟨i, rfl, hi⟩ := Option.map_eq_some_iff.1 hb
    exact absurd hi (ho i rfl)
  | fires oi _ _ ho =>
    obtain ⟨i, rfl, hi⟩ := Option.map_eq_some_iff.1 hb
    exact absurd hi (ho i rfl)
  | ends _ _ _ hover => exact hover
  | stays _ _ _ _ hf _ hret => cases hret <;> exact absurd (congrArg some hf) ha

end Judged

/-! ### The entries of each act -/

namespace Engine

/-- What an act enters in the history variable. -/
def entry (e : Engine) (t : ℤ) : Act → List Move
  | .judged r node sub value =>
    [⟨⟨r.id, node.id, sub⟩, .judged r value, t, e.stateOf ⟨r.id, node.id, sub⟩,
      (e.judged r node sub value t).stateOf ⟨r.id, node.id, sub⟩⟩]
  | .retell _ _ => []
  | .finish i _ _ => [⟨i.ident, .ended, t, e.stateOf i.ident, none⟩]
  | .drop i => [⟨i.ident, .ended, t, e.stateOf i.ident, none⟩]

private theorem moves_retell (e : Engine) (i : Inst) (r : Rule) (t : ℤ) : (e.retell i r t).moves = e.moves := by
  unfold retell
  split
  · rfl
  · split <;> rfl

private theorem moves_judge (e : Engine) (r : Rule) (node : Node) (sub : JsString) (value : Option ℚ) (t : ℤ) :
    (e.judge r node sub value t).moves = e.moves := by
  have hripen : ∀ (e : Engine) (i : Inst), (e.ripen i r t).moves = e.moves := by
    intro e i
    unfold ripen
    dsimp only
    split <;> rfl
  have hinst : ∀ (e : Engine) (i : Inst), (e.judgeInst i r value t).moves = e.moves := by
    intro e i
    unfold judgeInst
    dsimp only
    split
    · split
      · rfl
      · exact moves_retell _ _ _ _
    · split
      · exact hripen _ _
      · rfl
  unfold judge
  split
  · exact hinst _ _
  · split
    · exact hinst _ _
    · rfl

theorem moves_act (e : Engine) (t : ℤ) (a : Act) : (e.act t a).moves = e.moves ++ e.entry t a := by
  cases a with
  | judged r node sub value =>
    show (e.judge r node sub value t).moves ++ _ = _
    rw [moves_judge]
    rfl
  | retell i r => rw [act, moves_retell, entry, List.append_nil]
  | finish i r b =>
    rw [act, finish]
    split <;> rfl
  | drop i => rfl

end Engine

/-! ### Every act keeps the invariant -/

namespace Held

variable {e e' : Engine} {t : ℤ}

/-- An entry about `id`, and nothing else changed but `id`. -/
theorem append (h : Held e) {id : Ident} {m : Move} {ns : List Note} (htouch : Touches id ns e e')
    (hmoves : e'.moves = e.moves ++ [m]) (hid : m.ident = id) (hbefore : m.before = e.stateOf id)
    (hafter : m.after = e'.stateOf id)
    (hpending : ∀ i, e'.instances.get? id = some i → i.state = .pending → HeldSince (e.moves ++ [m]) id i.since)
    (hfired : m.turnsFiring → m.ripe e.moves) : Held e' where
  linked := by
    intro id'
    rw [hmoves, List.filter_append]
    by_cases hid' : m.ident = id'
    · obtain rfl : id' = id := hid'.symm.trans hid
      rw [List.filter_cons_of_pos (by simpa using hid'), List.filter_nil, ← hafter]
      exact (h.linked id').snoc hbefore
    · rw [List.filter_cons_of_neg (by simpa using hid'), List.filter_nil, List.append_nil, Engine.stateOf,
        htouch.others id' (fun h => hid' (hid.trans h.symm))]
      exact h.linked id'
  pending := by
    intro id' i hi hs
    rw [hmoves]
    by_cases hid' : id' = id
    · subst hid'
      exact hpending i hi hs
    · rw [htouch.others id' hid'] at hi
      exact (h.pending id' i hi hs).snoc fun hm => absurd (hm.symm.trans hid) hid'
  fired := by
    intro pre m' post hsplit hm'
    rw [hmoves] at hsplit
    rcases List.append_eq_append_iff.1 hsplit with ⟨as, rfl, has⟩ | ⟨bs, hbs, hb⟩
    · cases as with
      | nil =>
        simp only [List.nil_append, List.cons.injEq] at has
        obtain ⟨rfl, -⟩ := has
        rw [List.append_nil]
        exact hfired hm'
      | cons a as => simp at has
    · cases bs with
      | nil =>
        simp only [List.nil_append, List.cons.injEq] at hb
        obtain ⟨rfl, -⟩ := hb
        rw [hbs, List.append_nil] at hfired
        exact hfired hm'
      | cons b bs =>
        simp only [List.cons_append, List.cons.injEq] at hb
        obtain ⟨rfl, -⟩ := hb
        exact h.fired pre m' bs hbs hm'

/-- What is not about the instances' states and the history variable can change freely. -/
theorem congr (h : Held e) (hm : e'.moves = e.moves)
    (hi : ∀ id, (e'.instances.get? id).map Inst.pace = (e.instances.get? id).map Inst.pace) : Held e' where
  linked := by
    intro id
    have hstate : e'.stateOf id = e.stateOf id := by
      have := congrArg (Option.map Prod.fst) (hi id)
      rwa [Option.map_map, Option.map_map] at this
    rw [hm, hstate]
    exact h.linked id
  pending := by
    intro id i hi' hs
    have hpace := hi id
    rw [hi', Option.map_some, eq_comm, Option.map_eq_some_iff] at hpace
    obtain ⟨j, hj, hji⟩ := hpace
    obtain ⟨hstate, hsince⟩ := Prod.mk.inj hji
    rw [hm, ← hsince]
    exact h.pending id j hj (hstate.trans hs)
  fired := by
    rw [hm]
    exact h.fired

/-- A value that meets its rule goes on with a pending instance's wait, or starts one. -/
private theorem heldSince (h : Held e) {id : Ident} (hs : ∀ i, e.instances.get? id = some i → i.state ≠ .firing)
    {m : Move}
    (hid : m.ident = id) (hm : m.held) : HeldSince (e.moves ++ [m]) id (sinceOf (e.instances.get? id) m.time) := by
  have hstart : HeldSince (e.moves ++ [m]) id m.time := hid ▸ HeldSince.start hm
  cases hi : e.instances.get? id with
  | none => exact hstart
  | some i =>
    unfold sinceOf
    dsimp only
    split
    · exact hstart
    · rename_i hok
      have hpending : i.state = .pending := by
        cases hst : i.state with
        | ok => exact absurd hst hok
        | pending => rfl
        | firing => exact absurd hst (hs i hi)
      exact (h.pending id i hi hpending).snoc fun _ => hm

theorem judged (h : Held e) (r : Rule) (node : Node) (sub : JsString) (value : Option ℚ) :
    Held (e.judged r node sub value t) := by
  obtain ⟨ns, htouch, hj⟩ := Engine.judged_touches e r node sub value t
  have hmoves := Engine.moves_act e t (.judged r node sub value)
  refine h.append htouch hmoves rfl rfl rfl (fun i hi hs => ?_) ?_
  · obtain ⟨hv, ho, hsince⟩ := hj.waiting hi hs
    rw [hsince]
    exact h.heldSince ho rfl ⟨r, value, rfl, hv⟩
  · rintro ⟨hbefore, hafter⟩
    obtain ⟨hv, ho, hfor⟩ := hj.turned hbefore hafter
    refine ⟨r, value, sinceOf (e.instances.get? ⟨r.id, node.id, sub⟩) t, rfl, ?_,
      h.heldSince ho rfl ⟨r, value, rfl, hv⟩⟩
    show sinceOf (e.instances.get? ⟨r.id, node.id, sub⟩) t ≤ t - r.forTime
    omega

theorem retell (h : Held e) {i : Inst} (hi : e.Has i) (r : Rule) : Held (e.retell i r t) := by
  obtain ⟨ns, i', htouch, hget, hret⟩ := Engine.retell_touches e hi r t
  refine h.congr (Engine.moves_retell e i r t) fun id => ?_
  by_cases hid : id = i.ident
  · rw [hid, hi, hget]
    cases hret <;> rfl
  · rw [htouch.others id hid]

/-- An instance that ends leaves an entry that turns nothing firing. -/
theorem ended (h : Held e) {i : Inst} {ns : List Note} (htouch : Touches i.ident ns e e')
    (hmoves : e'.moves = e.moves ++ [⟨i.ident, .ended, t, e.stateOf i.ident, none⟩])
    (hget : e'.instances.get? i.ident = none) : Held e' := by
  have hafter : none = e'.stateOf i.ident := by
    rw [Engine.stateOf, hget]
    rfl
  refine h.append htouch hmoves rfl rfl hafter (fun j hj _ => ?_) ?_
  · rw [hget] at hj
    cases hj
  · rintro ⟨-, hafter⟩
    cases hafter

theorem act (h : Held e) {allowed : Engine → Act → Prop} (hlive : OnLive allowed) {a : Act} (ha : allowed e a) :
    Held (e.act t a) := by
  have hmoves := Engine.moves_act e t a
  cases a with
  | judged r node sub value => exact h.judged r node sub value
  | retell i r => exact h.retell (hlive e _ ha) r
  | finish i r b =>
    obtain ⟨ns, htouch, -⟩ := Engine.finish_touches e i r b t
    exact h.ended htouch hmoves (Engine.get?_finish_self e i r b t)
  | drop i => exact h.ended (Engine.drop_touches e i t) hmoves (Engine.get?_drop_self e i t)

theorem acts (h : Held e) {allowed : Engine → Act → Prop} (hlive : OnLive allowed) (hacts : Acts allowed t e e') :
    Held e' :=
  hacts.invariant (fun _ _ h ha => h.act hlive ha) h

/-! ### Runs -/

theorem create (rules : List Rule) : Held (Engine.create rules) where
  linked := fun _ => rfl
  pending := fun _ _ hi => (by cases hi)
  fired := fun pre m post h => by simp [Engine.create] at h

theorem prune (h : Held e) (old : List Rule) : Held (e.prune old t) :=
  (h.acts (pruneAct_onLive _) (Engine.pruned_acts e old t)).congr rfl fun _ => rfl

theorem call (h : Held e) (c : Engine.Call) : Held (e.call c) := by
  unfold Engine.call
  split
  · refine Held.acts ?_ (evaluateAct_onLive _ _ _ _) (Engine.evaluate_acts e _ _ _)
    unfold Engine.see
    split
    · exact h.congr rfl fun _ => rfl
    · exact h
  · exact h.acts (checkAct_onLive _ _ _) (Engine.check_acts e _ _)
  · exact h.congr rfl fun _ => rfl
  · exact h.congr rfl fun _ => rfl
  · rename_i saved _
    have hrules : Held { e with rules := buildRules saved } := h.congr rfl fun _ => rfl
    exact hrules.prune _
  · exact (h.acts (forgetAct_onLive _ _) (Engine.forgotten_acts e _ _)).congr rfl fun _ => rfl
  · rename_i saved _
    have hsaved : Held { e with rules := buildRules saved, instances := e.instances.saved } := by
      refine h.congr rfl fun id => ?_
      rw [Instances.get?_saved, Option.map_map]
      rfl
    exact hsaved.prune _

end Held

/-! ### The occasions of the entries -/

/-- A rule of the engine with the entry's id, as it holds for a node with the entry's id. -/
structure InForce (e : Engine) (m : Move) (node : Node) (rule r : Rule) : Prop where
  rule_mem : rule ∈ e.rules
  rule_id : rule.id = m.ident.rule
  node_id : node.id = m.ident.node
  forNode : forNode rule node = some r

/-- The occasions on which a call of the engine as it stands enters a move: a value of the push, the push itself
(`offline`), the silence of a node at the minute's check, a sub that is gone from a group of the push or that its rule
no longer watches, a rule that does not hold for the node or is gone or off, and a revoked node. -/
inductive Ground (e : Engine) (c : Engine.Call) (m : Move) : Prop
  | value (node : Node) (v : View) (rule r : Rule) (vals : List SubValue) (x : SubValue) :
      c.op = .evaluate node v → InForce e m node rule r →
      valuesOf r.metric v (seenRunning (e.runningOf node.id) v) = some vals → x ∈ Engine.watched r vals →
      m.ident.sub = x.sub → m.cause = .judged r (some x.value) → Ground e c m
  | pushed (node : Node) (v : View) (rule r : Rule) : c.op = .evaluate node v → InForce e m node rule r →
      r.metric = .offline → m.cause = .judged r (some 0) → Ground e c m
  | silence (nodes : List CheckedNode) (n : CheckedNode) (last : ℤ) (rule r : Rule) : c.op = .check nodes → n ∈ nodes →
      n.lastPush = some last → InForce e m n.toNode rule r → r.metric = .offline →
      m.cause = .judged r (some (if limitOf n.interval ≤ c.time - last then 1 else 0)) → Ground e c m
  | subGone (node : Node) (v : View) (rule r : Rule) (vals : List SubValue) : c.op = .evaluate node v →
      InForce e m node rule r → valuesOf r.metric v (seenRunning (e.runningOf node.id) v) = some vals →
      (m.ident.sub ∉ vals.map SubValue.sub ∨ ∃ s, r.sub = some s ∧ s ≠ m.ident.sub) → m.cause = .judged r none →
      Ground e c m
  | ruleEnded (node : Node) (rule : Rule) : ((∃ v, c.op = .evaluate node v) ∨
        ∃ nodes n, c.op = .check nodes ∧ n ∈ nodes ∧ n.toNode = node) →
      rule ∈ e.rules → rule.id = m.ident.rule → node.id = m.ident.node → forNode rule node = none →
      m.cause = .ended → Ground e c m
  | ruleGone (saved : List SavedRule) : c.op = .setRules saved ∨ c.op = .restart saved →
      (∀ r, (buildRules saved).find? (fun r => r.id = m.ident.rule) = some r → r.off = true) → m.cause = .ended →
      Ground e c m
  | nodeGone : c.op = .forget m.ident.node → m.cause = .ended → Ground e c m

/-- A judgement that took an instance out of firing found its sub gone or its value past the clear level. -/
def Move.overWhenLeft (m : Move) : Prop :=
  m.before = some .firing → m.after ≠ some .firing → ∀ r value, m.cause = .judged r value → r.isOver value = true

theorem Acts.moves {allowed : Engine → Act → Prop} {t : ℤ} {e e' : Engine} (h : Acts allowed t e e') :
    ∃ ms, e'.moves = e.moves ++ ms ∧ ∀ m ∈ ms, ∃ e₁ a, allowed e₁ a ∧ m ∈ e₁.entry t a := by
  induction h with
  | refl => exact ⟨[], by simp, by simp⟩
  | act e₁ a _ ha ih =>
    obtain ⟨ms, hms, hall⟩ := ih
    refine ⟨ms ++ e₁.entry t a, by rw [Engine.moves_act, hms, List.append_assoc], fun m hm => ?_⟩
    exact (List.mem_append.1 hm).elim (hall m) fun hm => ⟨e₁, a, ha, hm⟩

private theorem entry_spec {e : Engine} {t : ℤ} {a : Act} {m : Move} (h : m ∈ e.entry t a) :
    m.time = t ∧ m.overWhenLeft := by
  cases a with
  | judged r node sub value =>
    obtain rfl := List.mem_singleton.1 h
    refine ⟨rfl, fun hb ha r' value' hcause => ?_⟩
    obtain ⟨ns, -, hj⟩ := Engine.judged_touches e r node sub value t
    cases hcause
    exact hj.left hb ha
  | retell => cases h
  | finish i r b =>
    obtain rfl := List.mem_singleton.1 h
    exact ⟨rfl, fun _ _ _ _ hcause => (by cases hcause)⟩
  | drop i =>
    obtain rfl := List.mem_singleton.1 h
    exact ⟨rfl, fun _ _ _ _ hcause => (by cases hcause)⟩

namespace Engine

private theorem notMem_watched {r : Rule} {vals : List SubValue} {s : JsString}
    (h : s ∉ (watched r vals).map SubValue.sub) : s ∉ vals.map SubValue.sub ∨ ∃ s', r.sub = some s' ∧ s' ≠ s := by
  unfold watched at h
  split at h
  · exact Or.inl h
  · rename_i s' hs'
    split at h
    · exact Or.inl h
    · by_cases hss : s' = s
      · refine Or.inl fun hm => h ?_
        obtain ⟨x, hx, rfl⟩ := List.mem_map.1 hm
        exact List.mem_map.2 ⟨x, List.mem_filter.2 ⟨hx, by simp [hss]⟩, rfl⟩
      · exact Or.inr ⟨s', hs', hss⟩

variable {e : Engine} {t : ℤ} {m : Move}

private theorem ground_evaluate {node : Node} {v : View} {e₁ : Engine} {a : Act}
    (ha : EvaluateAct e.rules node v (seenRunning (e.runningOf node.id) v) e₁ a) (hm : m ∈ e₁.entry t a) :
    Ground e ⟨t, .evaluate node v⟩ m := by
  cases ha with
  | offline rule r hrule hr hoff =>
    obtain rfl := List.mem_singleton.1 hm
    exact .pushed node v rule r rfl ⟨hrule, (forNode_id hr).symm, rfl, hr⟩ hoff rfl
  | value rule r vals x hrule hr hvals hx =>
    obtain rfl := List.mem_singleton.1 hm
    exact .value node v rule r vals x rfl ⟨hrule, (forNode_id hr).symm, rfl, hr⟩ hvals hx rfl rfl
  | gone rule r vals i hrule hr hvals hi hir hin hsub =>
    obtain rfl := List.mem_singleton.1 hm
    exact .subGone node v rule r vals rfl ⟨hrule, (forNode_id hr).symm, rfl, hr⟩ hvals (notMem_watched hsub) rfl
  | ended rule i hrule hnone hi hir hin =>
    obtain rfl := List.mem_singleton.1 hm
    exact .ruleEnded node rule (Or.inl ⟨v, rfl⟩) hrule hir.symm hin.symm hnone rfl

private theorem ground_check {nodes : List CheckedNode} {e₁ : Engine} {a : Act} (ha : CheckAct e.rules nodes t e₁ a)
    (hm : m ∈ e₁.entry t a) : Ground e ⟨t, .check nodes⟩ m := by
  cases ha with
  | offline n last rule r hn hlast hrule hr =>
    obtain rfl := List.mem_singleton.1 hm
    have hoff : r.metric = .offline := by
      rw [forNode_metric hr]
      simpa using List.find?_some hrule
    exact .silence nodes n last rule r rfl hn hlast
      ⟨List.mem_of_find?_eq_some hrule, (forNode_id hr).symm, rfl, hr⟩ hoff rfl
  | ended n rule i hn hrule hnone hi hir hin =>
    obtain rfl := List.mem_singleton.1 hm
    exact .ruleEnded n.toNode rule (Or.inr ⟨nodes, n, rfl, hn, rfl⟩) hrule hir.symm hin.symm hnone rfl
  | again => cases hm

private theorem ground_prune {rules : List Rule} {e₁ : Engine} {a : Act} (ha : PruneAct rules e₁ a)
    (hm : m ∈ e₁.entry t a) :
    m.cause = .ended ∧ ∀ r, rules.find? (fun r => r.id = m.ident.rule) = some r → r.off = true := by
  cases ha with
  | off r i hr hoff hi =>
    obtain rfl := List.mem_singleton.1 hm
    refine ⟨rfl, fun r' hr' => ?_⟩
    obtain rfl := Option.some.inj (hr.symm.trans hr')
    exact hoff
  | gone i info hr hi =>
    obtain rfl := List.mem_singleton.1 hm
    refine ⟨rfl, fun r' hr' => ?_⟩
    cases hr.symm.trans hr'

private theorem ground_forget {node : NodeId} {e₁ : Engine} {a : Act} (ha : ForgetAct e.rules node e₁ a)
    (hm : m ∈ e₁.entry t a) : Ground e ⟨t, .forget node⟩ m := by
  cases ha with
  | known r i hr hi hin =>
    obtain rfl := List.mem_singleton.1 hm
    exact .nodeGone (congrArg _ hin.symm) rfl
  | lost i hr hi hin =>
    obtain rfl := List.mem_singleton.1 hm
    exact .nodeGone (congrArg _ hin.symm) rfl

/-- The entries a call makes: each on one of the occasions, and over when it takes an instance out of firing. -/
private theorem call_moves (e : Engine) (c : Call) :
    ∃ ms, (e.call c).moves = e.moves ++ ms ∧ ∀ m ∈ ms, m.time = c.time ∧ Ground e c m ∧ m.overWhenLeft := by
  obtain ⟨t, op⟩ := c
  cases op with
  | evaluate node v =>
    obtain ⟨ms, hms, hall⟩ := (evaluate_acts e node v t).moves
    have hsee : (e.see node.id v).moves = e.moves := by
      unfold see
      split <;> rfl
    refine ⟨ms, hsee ▸ hms, fun m hm => ?_⟩
    obtain ⟨e₁, a, ha, hma⟩ := hall m hm
    exact ⟨(entry_spec hma).1, ground_evaluate ha hma, (entry_spec hma).2⟩
  | check nodes =>
    obtain ⟨ms, hms, hall⟩ := (check_acts e nodes t).moves
    refine ⟨ms, hms, fun m hm => ?_⟩
    obtain ⟨e₁, a, ha, hma⟩ := hall m hm
    exact ⟨(entry_spec hma).1, ground_check ha hma, (entry_spec hma).2⟩
  | muteRule id til => exact ⟨[], (List.append_nil _).symm, by simp⟩
  | muteNode id til => exact ⟨[], (List.append_nil _).symm, by simp⟩
  | setRules saved =>
    obtain ⟨ms, hms, hall⟩ := (pruned_acts { e with rules := buildRules saved } e.rules t).moves
    refine ⟨ms, hms, fun m hm => ?_⟩
    obtain ⟨e₁, a, ha, hma⟩ := hall m hm
    obtain ⟨hcause, hoff⟩ := ground_prune ha hma
    exact ⟨(entry_spec hma).1, .ruleGone saved (Or.inl rfl) hoff hcause, (entry_spec hma).2⟩
  | forget node =>
    obtain ⟨ms, hms, hall⟩ := (forgotten_acts e node t).moves
    refine ⟨ms, hms, fun m hm => ?_⟩
    obtain ⟨e₁, a, ha, hma⟩ := hall m hm
    exact ⟨(entry_spec hma).1, ground_forget ha hma, (entry_spec hma).2⟩
  | restart saved =>
    obtain ⟨ms, hms, hall⟩ :=
      (pruned_acts { e with rules := buildRules saved, instances := e.instances.saved } [] t).moves
    refine ⟨ms, hms, fun m hm => ?_⟩
    obtain ⟨e₁, a, ha, hma⟩ := hall m hm
    obtain ⟨hcause, hoff⟩ := ground_prune ha hma
    exact ⟨(entry_spec hma).1, .ruleGone saved (Or.inr rfl) hoff hcause, (entry_spec hma).2⟩

/-! ### A push that lacks a group -/

end Engine

/-- The push lacks the group of the rules with the id, which all hold for its node. -/
def Lacks (e : Engine) (node : Node) (v : View) (id : RuleId) : Prop :=
  ∀ rule ∈ e.rules, rule.id = id → ∃ r, forNode rule node = some r ∧ r.metric ≠ .offline ∧
    valuesOf r.metric v (seenRunning (e.runningOf node.id) v) = none

/-- A push that lacks a rule's group leaves the rule's instances on its node as they are. -/
private theorem Engine.evaluate_lacks {e : Engine} {node : Node} {v : View} {id : Ident} (h : Lacks e node v id.rule)
    (t : ℤ) : (e.evaluate node v t).instances.get? id = e.instances.get? id := by
  have hlive := evaluateAct_onLive e.rules node v (seenRunning (e.runningOf node.id) v)
  have hsee : (e.see node.id v).instances = e.instances := by
    unfold see
    split <;> rfl
  rw [← hsee]
  refine (evaluate_acts e node v t).others hlive fun e₁ a ha hid => ?_
  -- each act of a push is under a rule that is off for the node, or whose group is there
  cases ha with
  | offline rule r hrule hr hoff =>
    obtain ⟨r', hr', hmetric, -⟩ := h rule hrule (by rw [hid]; exact (forNode_id hr).symm)
    obtain rfl := Option.some.inj (hr.symm.trans hr')
    exact hmetric hoff
  | value rule r vals x hrule hr hvals hx =>
    obtain ⟨r', hr', -, hlacks⟩ := h rule hrule (by rw [hid]; exact (forNode_id hr).symm)
    obtain rfl := Option.some.inj (hr.symm.trans hr')
    cases hvals.symm.trans hlacks
  | gone rule r vals i hrule hr hvals hi hir hin hsub =>
    obtain ⟨r', hr', -, hlacks⟩ := h rule hrule (by rw [hid]; exact (forNode_id hr).symm)
    obtain rfl := Option.some.inj (hr.symm.trans hr')
    cases hvals.symm.trans hlacks
  | ended rule i hrule hnone hi hir hin =>
    obtain ⟨r', hr', -⟩ := h rule hrule (by rw [hid]; exact hir.symm)
    cases hnone.symm.trans hr'

/-! ### Runs -/

/-- In every run of calls and restarts: the entries of each identity lead to the state it has; an instance that turned
firing was judged its rule's time before, and every value judged from then on met its rule; each call makes its
entries on the occasions of `Ground`, and a judgement that takes an instance out of firing found its sub gone or its
value past the clear level; a push that lacks a rule's group leaves its instances as they are. -/
theorem held_until_over (saved : List SavedRule) (calls : List Engine.Call) :
    let e₀ := Engine.create (buildRules saved)
    let e := Runs.run Engine.call e₀ calls
    (∀ id, Linked none (e.moves.filter fun m => m.ident = id) (e.stateOf id)) ∧
      (∀ pre m post, e.moves = pre ++ m :: post → m.turnsFiring → m.ripe pre) ∧
      Runs.Meets Engine.call (fun e c => ∃ ms, (e.call c).moves = e.moves ++ ms ∧
        ∀ m ∈ ms, m.time = c.time ∧ Ground e c m ∧ m.overWhenLeft) e₀ calls ∧
      Runs.Meets Engine.call (fun e c => ∀ node v, c.op = .evaluate node v → ∀ id : Ident,
        Lacks e node v id.rule → (e.call c).instances.get? id = e.instances.get? id) e₀ calls := by
  intro e₀ e
  have h : Held e := Runs.invariant (fun e c h => h.call c) (Held.create (buildRules saved)) calls
  refine ⟨h.linked, h.fired, Runs.meets_true.mono fun e c _ => Engine.call_moves e c,
    Runs.meets_true.mono fun e c _ node v hop id hlacks => ?_⟩
  rw [Engine.call, hop]
  exact Engine.evaluate_lacks hlacks c.time

end Servitals
