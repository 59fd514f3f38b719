import Servitals.AlertJudged
import Servitals.AlertTold

/-!
# A restart of the alert engine

An engine that is created again over what it saved has its rules, mutes, containers and instances, these without the
values they were last judged on.  No decision reads a value of an earlier judgement, so both engines go on alike: the
events they hand over and the alerts they list differ in the values of instances that were not judged again.
-/

namespace Servitals

/-- A judgement, and not an end. -/
def Move.isJudged (m : Move) : Bool :=
  match m.cause with
  | .judged _ _ => true
  | .ended => false

namespace Engine

/-- The engine has an instance with the value that was not judged since its first `n` moves. -/
def Unjudged (n : ℕ) (e : Engine) (id : Ident) (value : Option ℚ) : Prop :=
  (∃ i, e.instances.get? id = some i ∧ i.value = value) ∧ ∀ m ∈ e.moves.drop n, m.ident = id → m.isJudged = false

/-- An event as the engine that went on hands it over, and as the one created again does. -/
def SameEvent (n : ℕ) (e : Engine) (a b : Event) : Prop :=
  b = a ∨ (b = { a with value := none } ∧ Unjudged n e a.ident a.value)

/-- An alert as the two list it. -/
def SameFiring (n : ℕ) (e : Engine) (a b : Firing) : Prop :=
  b = a ∨ (b = { a with value := none } ∧ Unjudged n e ⟨a.rule, a.node, a.sub⟩ a.value)

/-! ### Two engines that go on alike -/

/-- An instance and its copy: the same, or without a value that is the one it had before the call and that was not
judged since. -/
def Copy (n : ℕ) (e₀ : Engine) (ms : List Move) (i j : Inst) : Prop :=
  j = i ∨ (j = { i with value := none } ∧ (∃ i₀, e₀.instances.get? i.ident = some i₀ ∧ i₀.value = i.value) ∧
    ∀ m ∈ ms.drop n, m.ident = i.ident → m.isJudged = false)

/-- A note and its copy. -/
def SameNote (n : ℕ) (e₀ : Engine) (a b : Note) : Prop := b.quiet = a.quiet ∧ SameEvent n e₀ a.event b.event

/-- `e'` does alike since a call that started at `e₀` and `e₀'`, `n` moves after a restart. -/
structure Alike (n : ℕ) (e₀ e₀' e e' : Engine) : Prop where
  rules : e'.rules = e.rules
  running : e'.running = e.running
  muteRules : e'.muteRules = e.muteRules
  muteNodes : e'.muteNodes = e.muteNodes
  moves : e'.moves = e.moves
  later : n ≤ e₀.moves.length ∧ e₀.moves <+: e.moves
  instances : OMap.Rel (Copy n e₀ e.moves) e.instances.map e'.instances.map
  notes : ∃ ns ns', e.notes = e₀.notes ++ ns ∧ e'.notes = e₀'.notes ++ ns' ∧ List.Forall₂ (SameNote n e₀) ns ns'

variable {n : ℕ} {e₀ e₀' e e' : Engine} {ms : List Move} {i j : Inst}

theorem Copy.refl (n : ℕ) (e₀ : Engine) (ms : List Move) (i : Inst) : Copy n e₀ ms i i := Or.inl rfl

/-- A copy differs in its value only. -/
theorem Copy.eq (h : Copy n e₀ ms i j) : ∃ w, j = { i with value := w } := by
  rcases h with rfl | ⟨rfl, -⟩
  · exact ⟨j.value, rfl⟩
  · exact ⟨none, rfl⟩

/-- What is changed in both but the value stays a copy. -/
theorem Copy.update (h : Copy n e₀ ms i j) (f : Inst → Inst) (hid : (f i).ident = i.ident) (hvalue : (f i).value = i.value)
    (hf : ∀ w, f { i with value := w } = { f i with value := w }) : Copy n e₀ ms (f i) (f j) := by
  rcases h with rfl | ⟨rfl, hold, hunjudged⟩
  · exact .refl _ _ _ _
  · right
    rw [hid, hvalue]
    exact ⟨hf none, hold, hunjudged⟩

namespace Alike

theorem put (h : Alike n e₀ e₀' e e') (hij : Copy n e₀ e.moves i j) : Alike n e₀ e₀' (e.put i) (e'.put j) := by
  obtain ⟨w, rfl⟩ := hij.eq
  exact { h with instances := h.instances.set _ hij }

theorem del (h : Alike n e₀ e₀' e e') (id : Ident) : Alike n e₀ e₀' (e.del id) (e'.del id) :=
  { h with instances := h.instances.erase _ }

theorem get? (h : Alike n e₀ e₀' e e') (id : Ident) :
    Option.Rel (Copy n e₀ e.moves) (e.instances.get? id) (e'.instances.get? id) := h.instances.get? _

theorem stateOf (h : Alike n e₀ e₀' e e') (id : Ident) : e'.stateOf id = e.stateOf id := by
  have hrel := h.get? id
  unfold Engine.stateOf
  generalize e.instances.get? id = oi at hrel ⊢
  generalize e'.instances.get? id = oj at hrel ⊢
  cases hrel with
  | some hij =>
    obtain ⟨w, rfl⟩ := hij.eq
    rfl
  | none => rfl

theorem quiet (h : Alike n e₀ e₀' e e') (w : Option ℚ) (r : RuleInfo) (t : ℤ) :
    e'.quiet { i with value := w } r t = e.quiet i r t := by
  unfold Engine.quiet muted offline
  rw [h.stateOf, h.muteRules, h.muteNodes]

theorem why (h : Alike n e₀ e₀' e e') (kind : Kind) (w : Option ℚ) (r : RuleInfo) (t : ℤ) :
    e'.why kind { i with value := w } r t = e.why kind i r t := by
  unfold Engine.why
  rw [h.quiet]

theorem tell (h : Alike n e₀ e₀' e e') (hij : Copy n e₀ e.moves i j) (kind : Kind) (r : RuleInfo) (t : ℤ) (b : Bool) :
    Alike n e₀ e₀' (e.tell kind i r t b) (e'.tell kind j r t b) := by
  obtain ⟨ns, ns', hns, hns', hall⟩ := h.notes
  refine { h with notes := ⟨ns ++ [⟨eventOf kind i r t b, e.why kind i r t⟩],
    ns' ++ [⟨eventOf kind j r t b, e'.why kind j r t⟩], ?_, ?_, List.rel_append hall (.cons ⟨?_, ?_⟩ .nil)⟩ }
  · rw [Engine.tell, hns, List.append_assoc]
  · rw [Engine.tell, hns', List.append_assoc]
  · obtain ⟨w, rfl⟩ := hij.eq
    exact h.why kind w r t
  · rcases hij with rfl | ⟨rfl, hold, hunjudged⟩
    · exact Or.inl rfl
    · refine Or.inr ⟨rfl, ?_, fun m hm hid => ?_⟩
      · rw [ident_eventOf]
        exact hold
      · rw [ident_eventOf] at hid
        exact hunjudged m ((h.later.2.drop n).subset hm) hid

theorem retell (h : Alike n e₀ e₀' e e') (hij : Copy n e₀ e.moves i j) (r : Rule) (t : ℤ) :
    Alike n e₀ e₀' (e.retell i r t) (e'.retell j r t) := by
  have hnoted : Copy n e₀ e.moves (i.notedAt true t) (j.notedAt true t) :=
    hij.update (fun i => i.notedAt true t) rfl rfl fun _ => rfl
  obtain ⟨w, rfl⟩ := hij.eq
  unfold Engine.retell
  rw [h.quiet]
  dsimp only
  split
  · exact (h.tell hij _ _ _ _).put hnoted
  · split
    · exact (h.tell hij _ _ _ _).put hnoted
    · exact h

/-- The judgement of one instance that both have with the same value. -/
theorem judgeInst (h : Alike n e₀ e₀' e e') (i : Inst) (r : Rule) (value : Option ℚ) (t : ℤ) :
    Alike n e₀ e₀' (e.judgeInst i r value t) (e'.judgeInst i r value t) := by
  have hput : ∀ {e e' : Engine} (_ : Alike n e₀ e₀' e e') (i : Inst), Alike n e₀ e₀' (e.put i) (e'.put i) :=
    fun h i => h.put (.refl _ _ _ i)
  have h₁ := hput h i
  unfold Engine.judgeInst
  dsimp only
  split
  · split
    · exact (h₁.tell (.refl _ _ _ i) _ _ _ _).del _
    · exact h₁.retell (.refl _ _ _ i) r t
  · split
    · have h₂ := hput h₁ (i.started t)
      unfold Engine.ripen
      dsimp only
      split
      · have h₃ := hput h₂ ((i.started t).fired r t)
        have hwhy := h₃.why (i := (i.started t).fired r t) .firing ((i.started t).fired r t).value r.info t
        rw [show ({ (i.started t).fired r t with value := ((i.started t).fired r t).value } : Inst) =
          (i.started t).fired r t from rfl] at hwhy
        rw [hwhy]
        exact hput (h₃.tell (.refl _ _ _ _) _ _ _ _) _
      · exact h₂
    · exact h₁.del _

theorem judge (h : Alike n e₀ e₀' e e') (r : Rule) (node : Node) (sub : JsString) (value : Option ℚ) (t : ℤ) :
    Alike n e₀ e₀' (e.judge r node sub value t) (e'.judge r node sub value t) := by
  have hrel := h.get? ⟨r.id, node.id, sub⟩
  unfold Engine.judge
  generalize e.instances.get? ⟨r.id, node.id, sub⟩ = oi at hrel ⊢
  generalize e'.instances.get? ⟨r.id, node.id, sub⟩ = oj at hrel ⊢
  cases hrel with
  | some hij =>
    obtain ⟨w, rfl⟩ := hij.eq
    exact h.judgeInst _ r value t
  | none =>
    dsimp only
    split
    · exact h.judgeInst _ r value t
    · exact h

end Alike

/-! ### The history of both -/

private theorem value_retell {i : Inst} (hi : e.Has i) (r : Rule) (t : ℤ) {j : Inst}
    (hj : (e.retell i r t).instances.get? i.ident = some j) : j.value = i.value := by
  obtain ⟨ns, i', -, hget, hretold⟩ := retell_touches e hi r t
  obtain rfl := Option.some.inj (hget.symm.trans hj)
  cases hretold <;> rfl

private theorem value_judgeInst (e : Engine) (i : Inst) (r : Rule) (value : Option ℚ) (t : ℤ) {j : Inst}
    (hj : (e.judgeInst i r value t).instances.get? i.ident = some j) : j.value = i.value := by
  unfold judgeInst at hj
  dsimp only at hj
  split at hj
  · split at hj
    · rw [get?_del_self] at hj
      cases hj
    · exact value_retell (get?_put_self e i) r t hj
  · split at hj
    · have hid : (i.started t).ident = i.ident := ident_started i t
      have hvalue : (i.started t).value = i.value := by
        unfold Inst.started
        split <;> rfl
      unfold ripen at hj
      dsimp only at hj
      split at hj
      · rw [put, Instances.get?_put, if_pos (by exact hid.symm)] at hj
        obtain rfl := Option.some.inj hj
        exact hvalue
      · rw [put, Instances.get?_put, if_pos (by exact hid.symm)] at hj
        obtain rfl := Option.some.inj hj
        exact hvalue
    · rw [get?_del_self] at hj
      cases hj

/-- An instance that was judged has the value it was judged on. -/
private theorem value_judge {e : Engine} {r : Rule} {node : Node} {sub : JsString} {value : Option ℚ} {t : ℤ} {j : Inst}
    (hj : (e.judge r node sub value t).instances.get? ⟨r.id, node.id, sub⟩ = some j) : j.value = value := by
  unfold judge at hj
  split at hj
  · rename_i i hi
    have hid : i.ident = ⟨r.id, node.id, sub⟩ := Instances.ident_of_get? hi
    rw [← hid] at hj
    exact value_judgeInst e _ r value t hj
  · rename_i hnone
    split at hj
    · exact value_judgeInst e ((fresh r node sub value t).seen value node.name) r value t hj
    · rw [hnone] at hj
      cases hj

namespace Alike

/-- A move is entered in the history of both; a judged instance is the same in both. -/
theorem moved (h : Alike n e₀ e₀' e e') (m : Move)
    (hm : m.isJudged = true → ∀ i j, e.instances.get? m.ident = some i → e'.instances.get? m.ident = some j → j = i) :
    Alike n e₀ e₀' { e with moves := e.moves ++ [m] } { e' with moves := e'.moves ++ [m] } := by
  have hle : n ≤ e.moves.length := h.later.1.trans h.later.2.length_le
  refine { h with
    moves := congrArg (· ++ [m]) h.moves
    later := ⟨h.later.1, h.later.2.trans (List.prefix_append _ _)⟩
    instances := h.instances.imp fun x hx y hy hkey hxy => ?_ }
  rcases hxy with heq | ⟨heq, hold, hunjudged⟩
  · exact Or.inl heq
  · by_cases hid : x.2.ident = m.ident ∧ m.isJudged = true
    · left
      have hxget : e.instances.map.get? x.1 = some x.2 := OMap.mem_entries_iff.1 hx
      have hyget : e'.instances.map.get? y.1 = some y.2 := OMap.mem_entries_iff.1 hy
      have hxkey : m.ident.key = x.1 := by rw [← hid.1]; exact e.instances.keyed _ _ hxget
      exact hm hid.2 x.2 y.2 (by rw [Instances.get?, hxkey]; exact hxget) (by rw [Instances.get?, hxkey, hkey]; exact hyget)
    · refine Or.inr ⟨heq, hold, fun m' hm' hid' => ?_⟩
      rw [List.drop_append_of_le_length hle, List.mem_append, List.mem_singleton] at hm'
      rcases hm' with hm' | rfl
      · exact hunjudged m' hm' hid'
      · rw [← Bool.not_eq_true]
        exact fun hj => hid ⟨hid'.symm, hj⟩

theorem judged (h : Alike n e₀ e₀' e e') (r : Rule) (node : Node) (sub : JsString) (value : Option ℚ) (t : ℤ) :
    Alike n e₀ e₀' (e.judged r node sub value t) (e'.judged r node sub value t) := by
  have h₁ := h.judge r node sub value t
  unfold Engine.judged
  dsimp only
  rw [h.stateOf, h₁.stateOf]
  refine h₁.moved _ fun _ i j hi hj => ?_
  have hrel := h₁.get? ⟨r.id, node.id, sub⟩
  rw [hi, hj] at hrel
  cases hrel with
  | some hij =>
    obtain ⟨w, rfl⟩ := hij.eq
    have hw : w = i.value := (value_judge hj).trans (value_judge hi).symm
    rw [hw]

theorem drop (h : Alike n e₀ e₀' e e') (hij : Copy n e₀ e.moves i j) (t : ℤ) :
    Alike n e₀ e₀' (e.drop i t) (e'.drop j t) := by
  obtain ⟨w, rfl⟩ := hij.eq
  unfold Engine.drop
  dsimp only
  rw [show ({ i with value := w } : Inst).ident = i.ident from rfl, h.stateOf]
  exact (h.del i.ident).moved _ fun hm => by cases hm

theorem finish (h : Alike n e₀ e₀' e e') (hij : Copy n e₀ e.moves i j) (r : RuleInfo) (b : Bool) (t : ℤ) :
    Alike n e₀ e₀' (e.finish i r b t) (e'.finish j r b t) := by
  have hstate : j.state = i.state := by
    obtain ⟨w, rfl⟩ := hij.eq
    rfl
  unfold Engine.finish
  rw [hstate]
  split
  · exact (h.tell hij _ _ _ _).drop hij t
  · exact h.drop hij t

/-! ### Loops -/

theorem foldl (h : Alike n e₀ e₀' e e') {α : Type*} {f : Engine → α → Engine} (l : List α)
    (hf : ∀ e e' x, x ∈ l → Alike n e₀ e₀' e e' → Alike n e₀ e₀' (f e x) (f e' x)) :
    Alike n e₀ e₀' (l.foldl f e) (l.foldl f e') := by
  induction l generalizing e e' with
  | nil => exact h
  | cons x l ih =>
    exact ih (hf e e' x List.mem_cons_self h) fun e e' y hy => hf e e' y (List.mem_cons_of_mem _ hy)

theorem forInstances (h : Alike n e₀ e₀' e e') {f : Engine → Inst → Engine}
    (hf : ∀ e e' i j, Alike n e₀ e₀' e e' → Copy n e₀ e.moves i j → Alike n e₀ e₀' (f e i) (f e' j)) :
    Alike n e₀ e₀' (e.forInstances f) (e'.forInstances f) := by
  have hlist : List.Forall₂ (fun i j : Inst => j.ident = i.ident) e.instances.list e'.instances.list := by
    refine h.instances.values.imp fun i j hij => ?_
    obtain ⟨w, rfl⟩ := hij.eq
    rfl
  unfold Engine.forInstances
  generalize e.instances.list = l at hlist ⊢
  generalize e'.instances.list = l' at hlist ⊢
  induction hlist generalizing e e' with
  | nil => exact h
  | cons hid _ ih =>
    rename_i i j l l' _
    rw [List.foldl_cons, List.foldl_cons]
    refine ih ?_
    have hrel := h.get? i.ident
    rw [hid]
    generalize e.instances.get? i.ident = oi at hrel ⊢
    generalize e'.instances.get? i.ident = oj at hrel ⊢
    cases hrel with
    | some hij => exact hf e e' _ _ h hij
    | none => exact h

/-! ### The entry points -/

theorem endAll (h : Alike n e₀ e₀' e e') (r : Rule) (node : NodeId) (t : ℤ) :
    Alike n e₀ e₀' (e.endAll r node t) (e'.endAll r node t) := by
  refine h.forInstances fun e e' i j h hij => ?_
  have hj := hij
  obtain ⟨w, rfl⟩ := hij.eq
  dsimp only
  split
  · exact h.finish hj _ _ _
  · exact h

theorem judgeGroup (h : Alike n e₀ e₀' e e') (r : Rule) (node : Node) (vals : List SubValue) (t : ℤ) :
    Alike n e₀ e₀' (e.judgeGroup r node vals t) (e'.judgeGroup r node vals t) := by
  unfold Engine.judgeGroup
  dsimp only
  have hvalues : Alike n e₀ e₀' ((watched r vals).foldl (fun e x => e.judged r node x.sub (some x.value) t) e)
      ((watched r vals).foldl (fun e x => e.judged r node x.sub (some x.value) t) e') :=
    h.foldl _ fun e e' x _ h => h.judged r node x.sub (some x.value) t
  refine hvalues.forInstances fun e e' i j h hij => ?_
  obtain ⟨w, rfl⟩ := hij.eq
  dsimp only
  split
  · exact h.judged _ _ _ _ _
  · exact h

theorem evaluateRule (h : Alike n e₀ e₀' e e') (node : Node) (v : View) (run : List JsString) (t : ℤ) (rule : Rule) :
    Alike n e₀ e₀' (Engine.evaluateRule node v run t e rule) (Engine.evaluateRule node v run t e' rule) := by
  unfold Engine.evaluateRule
  split
  · exact h.endAll _ _ _
  · split
    · exact h.judged _ _ _ _ _
    · split
      · exact h
      · exact h.judgeGroup _ _ _ _

theorem evaluate (h : Alike n e₀ e₀' e e') (node : Node) (v : View) (t : ℤ) :
    Alike n e₀ e₀' (e.evaluate node v t) (e'.evaluate node v t) := by
  have hsee : Alike n e₀ e₀' (e.see node.id v) (e'.see node.id v) := by
    unfold see runningOf
    rw [h.running]
    split
    · exact { h with running := rfl }
    · exact h
  unfold Engine.evaluate runningOf
  rw [h.rules, h.running]
  exact hsee.foldl _ fun e e' rule _ h => h.evaluateRule _ _ _ _ _

theorem checkOthers (h : Alike n e₀ e₀' e e') (node : Node) (stale : Bool) (t : ℤ) :
    Alike n e₀ e₀' (e.checkOthers node stale t) (e'.checkOthers node stale t) := by
  refine h.forInstances fun e e' i j h hij => ?_
  have hj := hij
  obtain ⟨w, rfl⟩ := hij.eq
  dsimp only [ruleOf]
  rw [h.rules]
  split
  · exact h
  · split
    · exact h
    · split
      · exact h.finish hj _ _ _
      · split
        · exact h
        · exact h.retell hj _ _

theorem check (h : Alike n e₀ e₀' e e') (nodes : List CheckedNode) (t : ℤ) :
    Alike n e₀ e₀' (e.check nodes t) (e'.check nodes t) := by
  refine h.foldl _ fun e e' node _ h => ?_
  unfold checkNode
  split
  · exact h
  · dsimp only
    apply checkOthers
    rw [h.rules]
    split
    · exact h
    · split
      · exact h.judged _ _ _ _ _
      · exact h.endAll _ _ _

theorem prune (h : Alike n e₀ e₀' e e') (old : List Rule) (t : ℤ) :
    Alike n e₀ e₀' (e.prune old t) (e'.prune old t) := by
  have hpruned : Alike n e₀ e₀' (e.pruned old t) (e'.pruned old t) := by
    refine h.forInstances fun e e' i j h hij => ?_
    have hj := hij
    obtain ⟨w, rfl⟩ := hij.eq
    dsimp only [ruleOf, lostRule]
    rw [h.rules]
    split
    · split
      · exact h.finish hj _ _ _
      · exact h
    · exact h.finish hj _ _ _
  unfold Engine.prune ruleOf
  dsimp only
  rw [hpruned.rules, hpruned.muteRules]
  exact { hpruned with rules := rfl, muteRules := rfl }

theorem forget (h : Alike n e₀ e₀' e e') (node : NodeId) (t : ℤ) :
    Alike n e₀ e₀' (e.forget node t) (e'.forget node t) := by
  have hforgotten : Alike n e₀ e₀' (e.forgotten node t) (e'.forgotten node t) := by
    refine h.forInstances fun e e' i j h hij => ?_
    have hj := hij
    obtain ⟨w, rfl⟩ := hij.eq
    dsimp only [ruleOf]
    rw [h.rules]
    split
    · exact h
    · split
      · exact h.finish hj _ _ _
      · exact h.drop hj _
  unfold Engine.forget
  dsimp only
  rw [hforgotten.running, hforgotten.muteNodes]
  exact { hforgotten with running := rfl, muteNodes := rfl }

end Alike

/-- A call that is no restart. -/
def Call.isRestart (c : Call) : Bool :=
  match c.op with
  | .restart _ => true
  | _ => false

/-- Both engines take a call alike. -/
theorem Alike.call (h : Alike n e₀ e₀' e e') {c : Call} (hc : c.isRestart = false) :
    Alike n e₀ e₀' (e.call c) (e'.call c) := by
  obtain ⟨t, op⟩ := c
  cases op with
  | evaluate node v => exact h.evaluate node v t
  | check nodes => exact h.check nodes t
  | muteRule id til =>
    unfold Engine.call muteRule
    dsimp only
    rw [h.muteRules]
    exact { h with muteRules := rfl }
  | muteNode id til =>
    unfold Engine.call muteNode
    dsimp only
    rw [h.muteNodes]
    exact { h with muteNodes := rfl }
  | setRules saved =>
    unfold Engine.call setRules
    dsimp only
    rw [h.rules]
    have hrules : Alike n e₀ e₀' { e with rules := buildRules saved } { e' with rules := buildRules saved } :=
      { h with rules := rfl }
    exact hrules.prune _ t
  | forget node => exact h.forget node t
  | restart saved => cases hc

end Engine

/-! ### The restart -/

/-- Each rule is in the file once, as `checkRules` makes sure. -/
def SavedRule.id : SavedRule → RuleId
  | .change id _ => .default id
  | .own r => .own r.id

def Once (saved : List SavedRule) : Prop := (saved.map SavedRule.id).Nodup

/-- The rules a call brings are each there once. -/
def Engine.Call.Once (c : Engine.Call) : Prop :=
  match c.op with
  | .setRules saved => Servitals.Once saved
  | .restart saved => Servitals.Once saved
  | _ => True

/-- No two rules of the engine have the same id. -/
theorem nodup_buildRules {saved : List SavedRule} (h : Once saved) : ((buildRules saved).map Rule.id).Nodup := by
  have hdefault : ∀ d : Rule, (((changesOf saved d.id).map d.edit).getD d).id = d.id := by
    intro d
    cases changesOf saved d.id <;> rfl
  have hown : ∀ id ∈ (saved.filterMap fun s => match s with
      | .change _ _ => none
      | .own r => some r.toRule).map Rule.id, ∃ c, id = .own c := by
    intro id hid
    obtain ⟨r, hr, rfl⟩ := List.mem_map.1 hid
    obtain ⟨s, -, hs⟩ := List.mem_filterMap.1 hr
    cases s with
    | change d c => cases hs
    | own r' =>
      cases hs
      exact ⟨_, rfl⟩
  unfold buildRules
  rw [List.map_append, List.map_map, List.nodup_append]
  refine ⟨?_, ?_, fun id hid id' hid' heq => ?_⟩
  · have hids : DEFAULT_RULES.map (Rule.id ∘ fun d => ((changesOf saved d.id).map d.edit).getD d) =
        DEFAULT_RULES.map Rule.id := List.map_congr_left fun d _ => hdefault d
    rw [hids]
    decide
  · clear hdefault hown
    unfold Once at h
    induction saved with
    | nil => exact List.nodup_nil
    | cons s saved ih =>
      rw [List.map_cons, List.nodup_cons] at h
      cases s with
      | change d c => exact ih h.2
      | own r =>
        refine List.nodup_cons.2 ⟨fun hmem => h.1 ?_, ih h.2⟩
        obtain ⟨r', hr', hid⟩ := List.mem_map.1 hmem
        obtain ⟨s, hs, hsr⟩ := List.mem_filterMap.1 hr'
        cases s with
        | change d c => cases hsr
        | own r'' =>
          cases hsr
          exact List.mem_map.2 ⟨_, hs, hid⟩
  · obtain ⟨d, hd, rfl⟩ := List.mem_map.1 hid
    obtain ⟨c, rfl⟩ := hown id' hid'
    rw [Function.comp_apply, hdefault] at heq
    simp only [DEFAULT_RULES, List.mem_cons, List.not_mem_nil, or_false] at hd
    rcases hd with rfl | rfl | rfl | rfl | rfl | rfl | rfl | rfl | rfl | rfl <;> cases heq

/-- No two rules have the same id, and the rule of every instance is there and on. -/
structure Standing (e : Engine) : Prop where
  nodup : (e.rules.map Rule.id).Nodup
  standing : ∀ i, e.Has i → ∃ r, e.ruleOf i.rule = some r ∧ r.off = false

private theorem off_of_forNode {rule r : Rule} {node : Node} (h : forNode rule node = some r) : rule.off = false := by
  unfold forNode at h
  split at h
  · cases h
  · rename_i hoff
    simpa using hoff

namespace Standing

variable {e : Engine} {t : ℤ}

/-- The rule that a node is judged by stands. -/
theorem rule (h : Standing e) {rule r : Rule} {node : Node} (hrule : rule ∈ e.rules) (hr : forNode rule node = some r) :
    ∃ r', e.ruleOf r.id = some r' ∧ r'.off = false := by
  refine ⟨rule, ?_, off_of_forNode hr⟩
  rw [forNode_id hr]
  have hnodup := h.nodup
  unfold Engine.ruleOf
  generalize e.rules = rules at hrule hnodup ⊢
  induction rules with
  | nil => cases hrule
  | cons x rules ih =>
    rw [List.map_cons, List.nodup_cons] at hnodup
    rcases List.mem_cons.1 hrule with rfl | hrule
    · exact List.find?_cons_of_pos (by simp)
    · rw [List.find?_cons_of_neg]
      · exact ih hrule hnodup.2
      · rw [decide_eq_true_eq]
        exact fun hid => hnodup.1 (List.mem_map.2 ⟨rule, hrule, hid.symm⟩)

theorem act (h : Standing e) {allowed : Engine → Act → Prop} (hlive : OnLive allowed) {a : Act} (ha : allowed e a)
    (hjudged : ∀ r node sub value, a = .judged r node sub value → ∃ r', e.ruleOf r.id = some r' ∧ r'.off = false) :
    Standing (e.act t a) := by
  obtain ⟨ns, htouch⟩ := Engine.act_touches hlive ha (t := t)
  refine ⟨htouch.rules ▸ h.nodup, fun j hj => ?_⟩
  rw [Engine.ruleOf, htouch.rules]
  by_cases hid : j.ident = a.ident
  · have hrule : j.rule = a.ident.rule := congrArg Ident.rule hid
    rw [hrule]
    have hon := hlive e a ha
    cases a with
    | judged r node sub value => exact hjudged r node sub value rfl
    | retell i r => exact h.standing i hon
    | finish i r b => exact h.standing i hon
    | drop i => exact h.standing i hon
  · rw [Engine.Has, htouch.others _ hid] at hj
    exact h.standing j hj

/-- Allowed acts keep the rules standing when what they judge is under a rule for the node. -/
theorem acts (h : Standing e) {allowed : Engine → Act → Prop} (hlive : OnLive allowed)
    (hjudged : ∀ e₁ r node sub value, allowed e₁ (.judged r node sub value) →
      ∃ rule ∈ e.rules, forNode rule node = some r)
    {e' : Engine} (hacts : Acts allowed t e e') : Standing e' := by
  refine (hacts.invariant (I := fun e₁ => e₁.rules = e.rules ∧ Standing e₁) ?_ ⟨rfl, h⟩).2
  rintro e₁ a ⟨hrules, h₁⟩ ha
  refine ⟨(Acts.rules_act hlive ha).trans hrules, h₁.act hlive ha ?_⟩
  rintro r node sub value rfl
  obtain ⟨rule, hrule, hr⟩ := hjudged e₁ r node sub value ha
  exact h₁.rule (hrules ▸ hrule) hr

theorem congr (h : Standing e) {e' : Engine} (hr : e'.rules = e.rules) (hi : e'.instances = e.instances) :
    Standing e' := by
  refine ⟨hr ▸ h.nodup, fun i hi' => ?_⟩
  rw [Engine.Has, hi] at hi'
  rw [Engine.ruleOf, hr]
  exact h.standing i hi'

theorem prune (hnodup : (e.rules.map Rule.id).Nodup) (old : List Rule) : Standing (e.prune old t) := by
  have hrules : (e.pruned old t).rules = e.rules := (Engine.pruned_acts e old t).rules (pruneAct_onLive _)
  have hpruned : Standing (e.pruned old t) := by
    refine ⟨hrules ▸ hnodup, fun i hi => ?_⟩
    rw [Engine.ruleOf, hrules]
    exact Engine.ruleOf_pruned hi
  exact hpruned.congr rfl rfl

theorem call (h : Standing e) {c : Engine.Call} (hc : c.Once) : Standing (e.call c) := by
  obtain ⟨t, op⟩ := c
  cases op with
  | evaluate node v =>
    have hsee : (e.see node.id v).rules = e.rules ∧ (e.see node.id v).instances = e.instances := by
      unfold Engine.see
      split <;> exact ⟨rfl, rfl⟩
    refine (h.congr hsee.1 hsee.2).acts (evaluateAct_onLive _ _ _ _) ?_ (Engine.evaluate_acts e node v t)
    intro e₁ r node' sub value ha
    rw [hsee.1]
    cases ha with
    | offline rule _ hrule hr => exact ⟨rule, hrule, hr⟩
    | value rule _ vals x hrule hr => exact ⟨rule, hrule, hr⟩
    | gone rule _ vals i hrule hr => exact ⟨rule, hrule, hr⟩
  | check nodes =>
    refine h.acts (checkAct_onLive _ _ _) ?_ (Engine.check_acts e nodes t)
    intro e₁ r node' sub value ha
    cases ha with
    | offline n last rule _ hn hlast hrule hr => exact ⟨rule, List.mem_of_find?_eq_some hrule, hr⟩
  | muteRule id til => exact h.congr rfl rfl
  | muteNode id til => exact h.congr rfl rfl
  | setRules saved => exact prune (nodup_buildRules hc) _
  | forget node =>
    have hforgotten : Standing (e.forgotten node t) := by
      refine h.acts (forgetAct_onLive _ _) ?_ (Engine.forgotten_acts e node t)
      intro e₁ r node' sub value ha
      cases ha
    exact hforgotten.congr rfl rfl
  | restart saved => exact prune (nodup_buildRules hc) _

theorem create {saved : List SavedRule} (h : Once saved) : Standing (Engine.create (buildRules saved)) :=
  ⟨nodup_buildRules h, fun _ hi => (by cases hi)⟩

end Standing

namespace Engine

variable {n : ℕ} {e₀ e₀' e e' : Engine}

/-- Where every rule stands, a start ends nothing. -/
private theorem pruned_eq_self (h : ∀ i, e.Has i → ∃ r, e.ruleOf i.rule = some r ∧ r.off = false) (old : List Rule)
    (t : ℤ) :
    e.pruned old t = e := by
  refine List.foldl_fixed' (fun i => ?_) e.instances.list
  split
  · rename_i j hj
    have hlive : e.Has j := by rw [Has, Instances.ident_of_get? hj]; exact hj
    obtain ⟨r, hr, hoff⟩ := h j hlive
    dsimp only
    rw [hr]
    dsimp only
    rw [if_neg (by rw [hoff]; exact Bool.noConfusion)]
  · rfl

/-- The engine created again has what was saved. -/
private theorem restart_eq (h : Standing e) (hmutes : ∀ id ∈ e.muteRules.keys, (e.ruleOf id).isSome = true) (t : ℤ) :
    e.restart e.rules t = { e with instances := e.instances.saved } := by
  have hstanding : ∀ i, ({ e with instances := e.instances.saved } : Engine).Has i →
      ∃ r, e.ruleOf i.rule = some r ∧ r.off = false := by
    intro i hi
    have hi : e.instances.saved.get? i.ident = some i := hi
    rw [Instances.get?_saved, Option.map_eq_some_iff] at hi
    obtain ⟨j, hj, rfl⟩ := hi
    exact h.standing j (by rw [Has]; exact hj)
  have hkept : e.muteRules.filter (fun id _ => (e.ruleOf id).isSome) = e.muteRules := by
    apply OMap.ext
    refine List.filter_eq_self.2 fun x hx => hmutes x.1 ?_
    exact List.mem_map.2 ⟨x, hx, rfl⟩
  show ({ e with instances := e.instances.saved } : Engine).prune [] t = _
  unfold prune
  rw [pruned_eq_self hstanding]
  dsimp only
  exact congrArg (fun m => ({ e with instances := e.instances.saved, muteRules := m } : Engine)) hkept

/-- What was saved is a copy. -/
private theorem alike_saved (e : Engine) :
    Alike e.moves.length e { e with instances := e.instances.saved } e { e with instances := e.instances.saved } where
  rules := rfl
  running := rfl
  muteRules := rfl
  muteNodes := rfl
  moves := rfl
  later := ⟨le_rfl, List.prefix_rfl⟩
  instances := by
    have hvalues : ∀ x ∈ e.instances.map.entries, Copy e.moves.length e e.moves x.2 { x.2 with value := none } := by
      intro x hx
      have hget : e.instances.map.get? x.1 = some x.2 := OMap.mem_entries_iff.1 hx
      refine Or.inr ⟨rfl, ⟨x.2, ?_, rfl⟩, fun m hm => ?_⟩
      · rw [Instances.get?, e.instances.keyed _ _ hget]
        exact hget
      · rw [List.drop_length] at hm
        cases hm
    show List.Forall₂ _ e.instances.map.entries (e.instances.map.entries.map _)
    rw [List.forall₂_map_right_iff, List.forall₂_same]
    exact fun x hx => ⟨rfl, hvalues x hx⟩
  notes := ⟨[], [], (List.append_nil _).symm, (List.append_nil _).symm, .nil⟩

/-- From one call to the next. -/
private theorem Alike.renew (h : Alike n e₀ e₀' e e') : Alike n e e' e e' := by
  refine { h with
    later := ⟨h.later.1.trans h.later.2.length_le, List.prefix_rfl⟩
    instances := h.instances.imp fun x hx y _ _ hxy => ?_
    notes := ⟨[], [], (List.append_nil _).symm, (List.append_nil _).symm, .nil⟩ }
  have hget : e.instances.map.get? x.1 = some x.2 := OMap.mem_entries_iff.1 hx
  refine hxy.imp_right fun hdiffer => ⟨hdiffer.1, ⟨x.2, ?_, rfl⟩, hdiffer.2.2⟩
  rw [Instances.get?, e.instances.keyed _ _ hget]
  exact hget

/-- The events a call hands over. -/
theorem Alike.told (h : Alike n e₀ e₀' e e') : ∃ es es', e.told = e₀.told ++ es ∧ e'.told = e₀'.told ++ es' ∧
    List.Forall₂ (SameEvent n e₀) es es' := by
  obtain ⟨ns, ns', hns, hns', hall⟩ := h.notes
  let passed (n : Note) : Option Event := if n.quiet.isNone then some n.event else none
  refine ⟨ns.filterMap passed, ns'.filterMap passed, ?_, ?_, ?_⟩
  · unfold Engine.told
    rw [hns, List.filterMap_append]
  · unfold Engine.told
    rw [hns', List.filterMap_append]
  · clear hns hns'
    induction hall with
    | nil => exact .nil
    | cons hab _ ih =>
      rename_i a b l l' _
      rw [List.filterMap_cons, List.filterMap_cons]
      dsimp only [passed]
      rw [hab.1]
      split
      · rename_i hnone
        split at hnone
        · cases hnone
        · rename_i hquiet
          rw [if_neg hquiet]
          exact ih
      · rename_i x hsome
        split at hsome
        · rename_i hquiet
          cases hsome
          rw [if_pos hquiet]
          exact .cons hab.2 ih
        · cases hsome

/-- The alerts both list. -/
theorem Alike.firing (h : Alike n e e' e e') (t : ℤ) : List.Forall₂ (SameFiring n e) (e.firing t) (e'.firing t) := by
  have hlist : List.Forall₂ (Copy n e e.moves) e.instances.list e'.instances.list := h.instances.values
  unfold Engine.firing ruleOf
  rw [h.rules]
  generalize e.instances.list = l at hlist ⊢
  generalize e'.instances.list = l' at hlist ⊢
  induction hlist with
  | nil => exact .nil
  | cons hij _ ih =>
    rename_i i j l l' _
    have hsame : j.state = i.state := by
      obtain ⟨w, rfl⟩ := hij.eq
      rfl
    by_cases hs : i.state = .firing
    · rw [List.filter_cons_of_pos (by simpa using hs), List.filter_cons_of_pos (by simpa using hsame.trans hs),
        List.map_cons, List.map_cons]
      refine .cons ?_ ih
      have hmuted : e'.muted j t = e.muted i t := by
        obtain ⟨w, rfl⟩ := hij.eq
        unfold muted
        rw [h.muteRules, h.muteNodes]
      have hquiet : ∀ r, e'.quiet j r t = e.quiet i r t := by
        obtain ⟨w, rfl⟩ := hij.eq
        exact fun r => h.quiet w r t
      unfold SameFiring
      dsimp only
      rw [hmuted, hquiet]
      rcases hij with rfl | ⟨rfl, hold, hunjudged⟩
      · exact Or.inl rfl
      · exact Or.inr ⟨rfl, hold, hunjudged⟩
    · rw [List.filter_cons_of_neg (by simpa using hs),
        List.filter_cons_of_neg (by simpa using fun hj => hs (hsame.symm.trans hj))]
      exact ih

theorem Alike.mutes (h : Alike n e₀ e₀' e e') (t : ℤ) : e'.mutes t = e.mutes t := by
  unfold Engine.mutes
  rw [h.muteRules, h.muteNodes]

/-- Both engines after any calls. -/
theorem alike_run (h : Alike n e e' e e') {later : List Call} (hlater : ∀ c ∈ later, c.isRestart = false) :
    Alike n (Runs.run call e later) (Runs.run call e' later) (Runs.run call e later) (Runs.run call e' later) := by
  induction later generalizing e e' with
  | nil => exact h
  | cons c later ih =>
    exact ih (h.call (hlater c List.mem_cons_self)).renew fun d hd => hlater d (List.mem_cons_of_mem _ hd)

/-- **A restart is invisible.**  From any state the engine can reach, with mutes only of its rules: created again with
these rules over what it saved, it tells nothing; and after any later calls, each next call hands over the same events
in the same order, and the same alerts are listed and the same mutes run, as if it had gone on, but for the values of
instances that were not judged since. -/
theorem restart_invisible (saved : List SavedRule) (hsaved : Once saved) (calls : List Call) (hcalls : ∀ c ∈ calls, c.Once)
    (t : ℤ) (later : List Call) (hlater : ∀ c ∈ later, c.isRestart = false) :
    let e := Runs.run call (create (buildRules saved)) calls
    let n := e.moves.length
    let e₁ := Runs.run call e later
    let e₂ := Runs.run call (e.restart e.rules t) later
    (∀ id ∈ e.muteRules.keys, (e.ruleOf id).isSome = true) →
      (e.restart e.rules t).told = e.told ∧
      (∀ c : Call, c.isRestart = false → ∃ es es', (e₁.call c).told = e₁.told ++ es ∧ (e₂.call c).told = e₂.told ++ es' ∧
        List.Forall₂ (SameEvent n e₁) es es') ∧
      ∀ u, List.Forall₂ (SameFiring n e₁) (e₁.firing u) (e₂.firing u) ∧ e₂.mutes u = e₁.mutes u := by
  intro e n e₁ e₂ hmutes
  have hstanding : Standing e := by
    have hmeets : Runs.Meets call (fun _ c => c.Once) (create (buildRules saved)) calls := Runs.meets_of_forall hcalls
    exact hmeets.invariant (fun e c h hc => h.call hc) (Standing.create hsaved)
  have hrestart := restart_eq hstanding hmutes t
  have halike : Alike n e₁ e₂ e₁ e₂ := by
    show Alike n _ (Runs.run call (e.restart e.rules t) later) _ (Runs.run call (e.restart e.rules t) later)
    rw [hrestart]
    exact alike_run (alike_saved e) hlater
  refine ⟨?_, fun c hc => (halike.call hc).told, fun u => ⟨halike.firing u, halike.mutes u⟩⟩
  rw [hrestart]
  rfl

private theorem isNodeId_hot : isNodeId (js "aaaaaaaaaaaa") = true := by decide

private def hotNode : Node := ⟨⟨js "aaaaaaaaaaaa", isNodeId_hot⟩, js "nas", []⟩

private def hotView : View := { View.bare 60 with cpu := some ⟨some 99, none, none⟩ }

/-- A processor that was busy for the time of its rule, which was muted before. -/
private def hotCalls : List Call :=
  [⟨0, .muteRule (.default .cpu) 5⟩, ⟨0, .evaluate hotNode hotView⟩, ⟨15 * MIN, .evaluate hotNode hotView⟩]

private theorem once_hotCalls : ∀ c ∈ hotCalls, c.Once := by
  intro c hc
  simp only [hotCalls, List.mem_cons, List.not_mem_nil, or_false] at hc
  rcases hc with rfl | rfl | rfl <;> trivial

/-- The engine with the alert. -/
private def hot : Engine := Runs.run call (create (buildRules [])) hotCalls

private theorem mutes_hot : ∀ id ∈ hot.muteRules.keys, (hot.ruleOf id).isSome = true := by decide +kernel

/-- What is evaluated after the restart: the processor is still busy, and at last idle. -/
private def hotLater : List Call := [⟨21 * MIN, .evaluate hotNode hotView⟩]

private def idleCall : Call := ⟨30 * MIN, .evaluate hotNode { View.bare 60 with cpu := some ⟨some 5, none, none⟩ }⟩

private theorem restart_hotLater : ∀ c ∈ hotLater, c.isRestart = false := by
  intro c hc
  rw [List.mem_singleton.mp hc]
  rfl

/-- The engine that goes on, and the one that was created again. -/
private def wentOn : Engine := Runs.run call hot hotLater

private def cameBack : Engine := Runs.run call (hot.restart hot.rules (20 * MIN)) hotLater

private theorem length_firing_wentOn : (wentOn.firing (21 * MIN)).length = 1 := by decide +kernel

private theorem length_told_idle : (wentOn.call idleCall).told.length = wentOn.told.length + 1 := by decide +kernel

/-- The alert is listed after the restart as without it, and the idle processor ends it with one event in both. -/
theorem hot_restart_invisible :
    (hot.restart hot.rules (20 * MIN)).told = hot.told ∧
      (∃ es es', (wentOn.call idleCall).told = wentOn.told ++ es ∧ (cameBack.call idleCall).told = cameBack.told ++ es' ∧
        es.length = 1 ∧ List.Forall₂ (SameEvent hot.moves.length wentOn) es es') ∧
      (wentOn.firing (21 * MIN)).length = 1 ∧
      List.Forall₂ (SameFiring hot.moves.length wentOn) (wentOn.firing (21 * MIN)) (cameBack.firing (21 * MIN)) := by
  have h := restart_invisible [] List.nodup_nil hotCalls once_hotCalls (20 * MIN) hotLater restart_hotLater mutes_hot
  obtain ⟨es, es', hes, hes', hsame⟩ := h.2.1 idleCall rfl
  have hlength : es.length = 1 := by
    have htold := length_told_idle
    rw [show (wentOn.call idleCall).told = wentOn.told ++ es from hes, List.length_append] at htold
    omega
  exact ⟨h.1, ⟨es, es', hes, hes', hlength, hsame⟩, length_firing_wentOn, (h.2.2 (21 * MIN)).1⟩

end Engine

end Servitals
