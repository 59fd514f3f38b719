import Servitals.AlertRestart
import Servitals.RulesPage

/-!
# The rules file and the engine's rules

`buildRules` and `forNode` stand here twice: over the file as the check leaves it, and over the rules that the engine is
about, whose metrics and servers cannot be anything else.  An accepted file that names its metrics and servers by strings
is one of these (`exists_saved`), both build the same rules of it (`buildRules_inFile`), and the rules hold for a node
and are met by a value alike (`forNode_built`, `holds_built`, `isOver_built`).
-/

namespace Servitals

/-! ### The engine's terms in the file's -/

def Target.who : Target → Who
  | .node id => .node (.str id.1)
  | .tag t => .tag t

def Override.inFile (o : Override) : FileOverride := ⟨o.who.who, o.threshold⟩

def Changes.inFile (c : Changes) : FileChange :=
  ⟨c.threshold, c.forMin, c.clear, c.severity, c.off.getD false, (c.overrides.getD []).map Override.inFile⟩

def OwnRule.inFile (r : OwnRule) : FileOwn :=
  ⟨r.id, r.name, .str r.metric.str, r.op, r.threshold, r.scope.map Target.who, r.sub, r.forMin, r.clear, r.severity, r.off,
    r.overrides.map Override.inFile⟩

def SavedRule.inFile : SavedRule → FileRule
  | .change d c => .change d c.inFile
  | .own r => .own r.inFile

def Rule.built (r : Rule) : BuiltRule where
  id := r.id
  name := r.name
  metric := .str r.metric.str
  op := r.op
  threshold := r.threshold
  forTime := r.forTime
  clear := r.clear
  severity := r.severity
  repeatTime := r.repeatTime
  off := r.off
  scope := r.scope.map Target.who
  sub := r.sub
  overrides := r.overrides.map Override.inFile

/-! ### The rules that are built -/

private theorem changeOf_inFile (saved : List SavedRule) (d : DefaultId) :
    RulesFile.changeOf (saved.map SavedRule.inFile) d = (changesOf saved (.default d)).map Changes.inFile := by
  induction saved with
  | nil => rfl
  | cons s saved ih =>
    unfold RulesFile.changeOf changesOf at ih ⊢
    rw [List.map_cons, List.findSome?_cons, List.findSome?_cons]
    cases s with
    | own r => exact ih
    | change d' c =>
      by_cases hd : d' = d
      · simp [SavedRule.inFile, hd]
      · simpa [SavedRule.inFile, hd] using ih

private theorem built_rule (d : DefaultId) : d.rule.built = d.built := by cases d <;> rfl

private theorem built_edit (d : DefaultId) (c : Changes) : (d.rule.edit c).built = c.inFile.built d := by
  have hoff : d.rule.off = false := by cases d <;> rfl
  have hoverrides : d.rule.overrides = [] := by cases d <;> rfl
  rw [FileChange.built, ← built_rule]
  simp only [Rule.built, Rule.edit, Changes.inFile, hoff, hoverrides]

/-- Both build the same rules. -/
theorem buildRules_inFile (saved : List SavedRule) :
    RulesFile.buildRules (saved.map SavedRule.inFile) = (buildRules saved).map Rule.built := by
  rw [RulesFile.buildRules, buildRules, List.map_append]
  congr 1
  · rw [DEFAULT_RULES_eq, List.map_map, List.map_map]
    refine List.map_congr_left fun d _ => ?_
    have hid : d.rule.id = .default d := by cases d <;> rfl
    rw [changeOf_inFile, Function.comp_apply, Function.comp_apply, hid]
    cases changesOf saved (.default d) with
    | none => exact (built_rule d).symm
    | some c => exact (built_edit d c).symm
  · induction saved with
    | nil => rfl
    | cons s saved ih =>
      cases s with
      | change d c => exact ih
      | own r => exact congrArg (r.toRule.built :: ·) ih

/-! ### A rule for a node, and a value -/

private theorem covers_who {t : Target} (ht : t ≠ .tag []) (node : Node) : t.who.covers node = t.covers node := by
  cases t with
  | node id =>
    have hiff : id.1 = node.id.1 ↔ id = node.id := ⟨Subtype.ext, congrArg Subtype.val⟩
    rw [Target.who, Who.covers, Target.covers, Bool.eq_iff_iff, beq_iff_eq, beq_iff_eq]
    exact hiff
  | tag t =>
    have hne : (t != []) = true := bne_iff_ne.2 fun h => ht (by rw [h])
    rw [Target.who, Who.covers, Target.covers, hne, Bool.true_and]

/-- The tags that the rule names are not empty, as the check has it. -/
structure Rule.Tagged (r : Rule) : Prop where
  scope : ∀ t, r.scope = some t → t ≠ .tag []
  overrides : ∀ o ∈ r.overrides, o.who ≠ .tag []

private theorem find?_inFile {os : List Override} {p : FileOverride → Bool} {q : Override → Bool}
    (h : ∀ o ∈ os, p o.inFile = q o) : (os.map Override.inFile).find? p = (os.find? q).map Override.inFile := by
  rw [List.find?_map]
  congr 1
  exact List.find?_congr h

/-- Both hold for a node alike. -/
theorem forNode_built {r : Rule} (h : r.Tagged) (node : Node) : r.built.forNode node = (forNode r node).map Rule.built := by
  have hscope : (r.built.scope.any fun s => !s.covers node) = r.scope.any fun s => !s.covers node && s != .tag [] := by
    show ((r.scope.map Target.who).any fun s => !s.covers node) = _
    cases hs : r.scope with
    | none => rfl
    | some t =>
      have ht := h.scope t hs
      simp [covers_who ht, ht]
  have hown : r.built.overrides.find? (fun o => o.who.isNode node) =
      (r.overrides.find? fun o => o.who == .node node.id).map Override.inFile := by
    refine find?_inFile fun o _ => ?_
    obtain ⟨who, th⟩ := o
    cases who with
    | node id =>
      have hiff : id.1 = node.id.1 ↔ id = node.id := ⟨Subtype.ext, congrArg Subtype.val⟩
      rw [Bool.eq_iff_iff]
      simpa [Override.inFile, Target.who, Who.isNode] using hiff
    | tag t => rfl
  have htagged : r.built.overrides.find? (fun o => o.who.isTag node) =
      (r.overrides.find? fun o => match o.who with
        | .node _ => false
        | .tag t => t != [] && node.tags.contains t).map Override.inFile := by
    refine find?_inFile fun o ho => ?_
    obtain ⟨who, th⟩ := o
    cases who with
    | node id => rfl
    | tag t =>
      have hne : (t != []) = true := bne_iff_ne.2 fun ht => h.overrides _ ho (by rw [ht])
      simp [Override.inFile, Target.who, Who.isTag, hne]
  unfold BuiltRule.forNode forNode
  rw [hscope, hown, htagged, show r.built.off = r.off from rfl]
  split
  · rfl
  · split
    · rfl
    · dsimp only
      rw [← Option.map_or]
      cases (r.overrides.find? fun o => o.who == .node node.id).or (r.overrides.find? fun o => match o.who with
        | .node _ => false
        | .tag t => t != [] && node.tags.contains t) with
      | none => rfl
      | some o =>
        show o.threshold.map _ = (o.threshold.map _).map Rule.built
        rw [Option.map_map]
        rfl

/-- Both are met by a value alike. -/
theorem holds_built (r : Rule) (value : Option ℚ) : r.built.holds value = r.holds value := rfl

/-- Both end by a value alike. -/
theorem isOver_built (r : Rule) (value : Option ℚ) : r.built.isOver value = r.isOver value := by
  cases value with
  | none => rfl
  | some v => cases h : r.clear <;> simp [BuiltRule.isOver, Rule.isOver, Rule.built, h]

/-! ### Accepted files -/

/-- The rule names its metric by a string. -/
def RulesFile.metricString : FileRule → Bool
  | .change _ _ => true
  | .own r => match r.metric with
    | .str _ => true
    | _ => false

/-- What the check knows of a rule, in the engine's terms. -/
def SavedRule.Checked (s : SavedRule) : Prop :=
  s.fitsOffline = true ∧ match s with
    | .change _ c => ∀ o ∈ c.overrides.getD [], o.who ≠ .tag []
    | .own r => r.toRule.Tagged

private theorem exists_map {α β : Type*} {g : α → β} {P : α → Prop} {ys : List β} (h : ∀ y ∈ ys, ∃ x, g x = y ∧ P x) :
    ∃ xs : List α, xs.map g = ys ∧ ∀ x ∈ xs, P x := by
  induction ys with
  | nil => exact ⟨[], rfl, fun x hx => absurd hx List.not_mem_nil⟩
  | cons y ys ih =>
    obtain ⟨x, rfl, hx⟩ := h y List.mem_cons_self
    obtain ⟨xs, rfl, hxs⟩ := ih fun z hz => h z (List.mem_cons_of_mem _ hz)
    exact ⟨x :: xs, rfl, List.forall_mem_cons.2 ⟨hx, hxs⟩⟩

private theorem exists_target {w : Who} (h : RulesFile.WhoSound w) (hplain : RulesFile.isPlain w = true) :
    ∃ t : Target, t.who = w ∧ t ≠ .tag [] := by
  cases w with
  | tag t =>
    refine ⟨.tag t, rfl, fun heq => ?_⟩
    rw [Target.tag.inj heq] at h
    cases h
  | node v =>
    cases v with
    | str s => exact ⟨.node ⟨s, h⟩, rfl, fun heq => by cases heq⟩
    | _ => cases hplain

private theorem exists_overrides {offline : Bool} {metric : Json} {os : List FileOverride}
    (h : RulesFile.OverridesSound offline metric os) (hplain : (os.all fun o => RulesFile.isPlain o.who) = true) :
    ∃ os' : List Override, os'.map Override.inFile = os ∧ ∀ o ∈ os', o.who ≠ .tag [] := by
  refine exists_map fun o ho => ?_
  obtain ⟨t, ht, hne⟩ := exists_target (h.who o ho) (List.all_eq_true.1 hplain o ho)
  exact ⟨⟨t, o.threshold⟩, by rw [Override.inFile, ht], hne⟩

private theorem exists_metric {m : Json} (h : (RulesFile.metricInfo m).isSome = true) {s : JsString} (hs : m = .str s) :
    ∃ x : Metric, x.str = s := by
  subst hs
  obtain ⟨b, hb⟩ := Option.isSome_iff_exists.1 h
  have hb : (RulesFile.METRICS.find? fun m => m.1 == s).map Prod.snd = some b := hb
  obtain ⟨⟨name, sub⟩, hfound, -⟩ := Option.map_eq_some_iff.1 hb
  have hname : name = s := by simpa using List.find?_some hfound
  have hmem := List.mem_of_find?_eq_some hfound
  have hall : ∀ e ∈ RulesFile.METRICS, ∃ x : Metric, x.str = e.1 := by
    simp only [RulesFile.METRICS, List.forall_mem_cons]
    exact ⟨⟨.diskUsed, rfl⟩, ⟨.mem, rfl⟩, ⟨.cpu, rfl⟩, ⟨.temp, rfl⟩, ⟨.containerDown, rfl⟩, ⟨.failedUnits, rfl⟩,
      ⟨.rebootRequired, rfl⟩, ⟨.securityUpdates, rfl⟩, fun e he => absurd he List.not_mem_nil⟩
  exact hname ▸ hall _ hmem

/-- A change of an accepted file. -/
private theorem exists_change {d : DefaultId} {c : FileChange} (h : RulesFile.ChangeSound d c)
    (hplain : RulesFile.namesStrings (.change d c) = true) : ∃ s : SavedRule, s.inFile = .change d c ∧ s.Checked := by
  obtain ⟨os, hos, hne⟩ := exists_overrides h.overrides hplain
  refine ⟨.change d ⟨c.threshold, c.forMin, c.clear, c.severity, some c.off, some os⟩, ?_, ?_, hne⟩
  · rw [SavedRule.inFile, Changes.inFile]
    show FileRule.change d ⟨c.threshold, c.forMin, c.clear, c.severity, c.off, os.map Override.inFile⟩ = _
    rw [hos]
  · by_cases hd : d = .offline
    · subst hd
      have hth : c.threshold = none := by
        cases hc : c.threshold with
        | none => rfl
        | some x => exact absurd rfl (h.threshold x hc).1
      have hfor : c.forMin = none := by
        cases hc : c.forMin with
        | none => rfl
        | some m => exact absurd rfl (h.forMin m hc).1
      have hclear : c.clear.all Option.isNone = true := by
        cases hc : c.clear with
        | none => rfl
        | some o =>
          cases o with
          | none => rfl
          | some x => exact absurd rfl (h.clear x hc).1
      have hlevels : (os.all fun o => o.threshold.isNone) = true := by
        refine List.all_eq_true.2 fun o ho => ?_
        have hmem : o.inFile ∈ c.overrides := hos ▸ List.mem_map_of_mem ho
        cases hc : o.threshold with
        | none => rfl
        | some x => exact absurd (h.overrides.level o.inFile hmem x hc).1 (by decide)
      simp [SavedRule.fitsOffline, hth, hfor, hclear, hlevels]
    · cases d with
      | offline => exact absurd rfl hd
      | _ => rfl

/-- A rule of one's own of an accepted file. -/
private theorem exists_own {r : FileOwn} (h : RulesFile.OwnSound r) (hplain : RulesFile.namesStrings (.own r) = true)
    (hmetric : RulesFile.metricString (.own r) = true) : ∃ s : SavedRule, s.inFile = .own r ∧ s.Checked := by
  obtain ⟨hscope, hoverrides⟩ := Bool.and_eq_true_iff.1 hplain
  obtain ⟨os, hos, hne⟩ := exists_overrides h.overrides hoverrides
  obtain ⟨x, hx⟩ : ∃ x : Metric, Json.str x.str = r.metric := by
    cases hm : r.metric with
    | str s =>
      obtain ⟨x, hx⟩ := exists_metric h.metric hm
      exact ⟨x, by rw [hx]⟩
    | _ =>
      rw [RulesFile.metricString, hm] at hmetric
      cases hmetric
  obtain ⟨scope, hs, hscoped⟩ : ∃ scope : Option Target, scope.map Target.who = r.scope ∧
      ∀ t, scope = some t → t ≠ .tag [] := by
    cases hw : r.scope with
    | none => exact ⟨none, rfl, fun t ht => by cases ht⟩
    | some w =>
      rw [hw] at hscope
      obtain ⟨t, ht, htag⟩ := exists_target (h.scope w hw) hscope
      exact ⟨some t, by rw [Option.map_some, ht], fun u hu => Option.some.inj hu ▸ htag⟩
  refine ⟨.own ⟨r.id, r.name, x, r.op, r.threshold, r.forMin, r.clear, r.severity, r.off, scope, r.sub, os⟩, ?_, rfl,
    hscoped, hne⟩
  rw [SavedRule.inFile, OwnRule.inFile]
  dsimp only
  rw [hx, hs, hos]

private theorem id_inFile (s : SavedRule) : s.inFile.id = s.id.str := by cases s <;> rfl

private theorem SavedRule.tagged_buildRules {saved : List SavedRule} (h : ∀ s ∈ saved, s.Checked) {r : Rule}
    (hr : r ∈ buildRules saved) : r.Tagged := by
  rcases List.mem_append.1 hr with hr | hr
  · obtain ⟨r₀, hr₀, rfl⟩ := List.mem_map.1 hr
    rw [DEFAULT_RULES_eq] at hr₀
    obtain ⟨d, -, rfl⟩ := List.mem_map.1 hr₀
    have hdefault : d.rule.Tagged := by cases d <;> exact ⟨fun t ht => (by cases ht), fun o ho => absurd ho List.not_mem_nil⟩
    cases hc : changesOf saved d.rule.id with
    | none => exact hdefault
    | some c =>
      obtain ⟨s, hs, hsc⟩ := List.exists_of_findSome?_eq_some hc
      cases s with
      | own r => cases hsc
      | change d' c' =>
        dsimp only at hsc
        split at hsc
        · obtain rfl := Option.some.inj hsc
          refine ⟨hdefault.scope, fun o ho => ?_⟩
          have ho : o ∈ c'.overrides.getD d.rule.overrides := ho
          rw [show d.rule.overrides = [] by cases d <;> rfl] at ho
          exact (h _ hs).2 o ho
        · cases hsc
  · obtain ⟨s, hs, hsr⟩ := List.mem_filterMap.1 hr
    cases s with
    | change d c => cases hsr
    | own r' =>
      obtain rfl := Option.some.inj hsr
      exact (h _ hs).2

/-- **The engine's rules are the file's.**  An accepted file that names its servers and metrics by strings is one that
the engine is about: of rules that are each there once, with the offline rule's levels as they are, and it builds the
engine's rules, which hold for every node and are met and ended by every value as those of the file. -/
theorem exists_saved {nodeIds : Option (List JsString)} {input : Json} {f : List FileRule}
    (h : RulesFile.checkRules nodeIds input = .ok f)
    (hplain : ∀ r ∈ f, RulesFile.namesStrings r = true ∧ RulesFile.metricString r = true) :
    ∃ saved : List SavedRule, saved.map SavedRule.inFile = f ∧ Once saved ∧ saved.all SavedRule.fitsOffline = true ∧
      RulesFile.buildRules f = (buildRules saved).map Rule.built ∧
      ∀ r ∈ buildRules saved, ∀ node, r.built.forNode node = (forNode r node).map Rule.built := by
  obtain ⟨saved, rfl, hchecked⟩ : ∃ saved : List SavedRule, saved.map SavedRule.inFile = f ∧ ∀ s ∈ saved, s.Checked := by
    refine exists_map fun c hc => ?_
    have hsound := RulesFile.ruleSound_of_mem h hc
    obtain ⟨hstrings, hmetric⟩ := hplain c hc
    cases c with
    | change d c => exact exists_change hsound hstrings
    | own r => exact exists_own hsound hstrings hmetric
  refine ⟨saved, rfl, ?_, ?_, buildRules_inFile saved, fun r hr node => forNode_built ?_ node⟩
  · have hnodup := (RulesFile.length_of_check h).2
    rw [List.map_map, show FileRule.id ∘ SavedRule.inFile = RuleId.str ∘ SavedRule.id from funext id_inFile,
      ← List.map_map] at hnodup
    exact hnodup.of_map _
  · exact List.all_eq_true.2 fun s hs => (hchecked s hs).1
  · exact SavedRule.tagged_buildRules hchecked hr

end Servitals
