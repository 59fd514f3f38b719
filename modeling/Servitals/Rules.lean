import Servitals.JsString

/-!
# Alert rules

The rules of the alert engine as `DEFAULT_RULES` lists them, as a person's file changes them or adds to them
(`buildRules`), and as one node sees them (`forNode`: its scope, its overrides).  Times are in milliseconds, a
file's times in minutes.
-/

namespace Servitals

/-- The ids of the rules in `DEFAULT_RULES`. -/
inductive DefaultId
  | offline | diskFull | diskCritical | memory | cpu | temperature | containerDown | failedUnits | rebootRequired
  | securityUpdates
  deriving DecidableEq

def DefaultId.str : DefaultId → JsString
  | offline => js "offline"
  | diskFull => js "disk_full"
  | diskCritical => js "disk_critical"
  | memory => js "memory"
  | cpu => js "cpu"
  | temperature => js "temperature"
  | containerDown => js "container_down"
  | failedUnits => js "failed_units"
  | rebootRequired => js "reboot_required"
  | securityUpdates => js "security_updates"

/-- `CUSTOM_ID`: `/^c_[a-z0-9]{1,16}$/`. -/
def isCustomId (s : JsString) : Bool :=
  s.take 2 == js "c_" && (s.drop 2).length != 0 && (s.drop 2).length ≤ 16 &&
    (s.drop 2).all fun u => unitIn 'a' 'z' u || unitIn '0' '9' u

/-- The id of a rule: a default rule's, or one of a person's own. -/
inductive RuleId
  | default (d : DefaultId)
  | own (c : { s : JsString // isCustomId s = true })
  deriving DecidableEq

def RuleId.str : RuleId → JsString
  | default d => d.str
  | own c => c.1

theorem bar_notMem_ruleId (r : RuleId) : bar ∉ r.str := by
  cases r with
  | default d => cases d <;> decide
  | own c =>
    intro hm
    have h := c.2
    simp only [isCustomId, Bool.and_eq_true, beq_iff_eq, List.all_eq_true] at h
    have hm : bar ∈ c.1.take 2 ++ c.1.drop 2 := by rwa [List.take_append_drop]
    rcases List.mem_append.1 hm with hm | hm
    · rw [h.1.1.1] at hm
      exact absurd hm (by decide)
    · have := h.2 _ hm
      revert this
      decide

theorem ruleId_str_inj {r s : RuleId} (h : r.str = s.str) : r = s := by
  have hown : ∀ d : DefaultId, isCustomId d.str = false := by
    intro d
    cases d <;> decide
  cases r with
  | default d =>
    cases s with
    | default d' =>
      have : d = d' := by
        revert h
        cases d <;> cases d' <;> decide
      rw [this]
    | own c => exact absurd c.2 (by rw [← show d.str = c.1 from h, hown d]; decide)
  | own c =>
    cases s with
    | default d => exact absurd c.2 (by rw [show c.1 = d.str from h, hown d]; decide)
    | own c' => rw [Subtype.ext (show c.1 = c'.1 from h)]

inductive Severity
  | critical | warning | info
  deriving DecidableEq

/-- What a rule watches in a node's view. -/
inductive Metric
  | offline | diskUsed | mem | cpu | temp | containerDown | failedUnits | rebootRequired | securityUpdates
  deriving DecidableEq

inductive Op
  | ge | le | eq
  deriving DecidableEq

/-- `OPS`: how a value is compared with a level. -/
def Op.holds : Op → ℚ → ℚ → Bool
  | ge, a, b => decide (b ≤ a)
  | le, a, b => decide (a ≤ b)
  | eq, a, b => decide (a = b)

/-- What a scope or an override names: one node, or the nodes with a tag. -/
inductive Target
  | node (id : NodeId)
  | tag (t : JsString)
  deriving DecidableEq

/-- An override: off for its target, or another threshold there. -/
structure Override where
  who : Target
  threshold : Option ℚ
  deriving DecidableEq

/-- A rule of the engine. -/
structure Rule where
  id : RuleId
  name : Option JsString
  metric : Metric
  op : Op
  threshold : ℚ
  forTime : ℤ
  clear : Option ℚ
  severity : Severity
  repeatTime : ℤ
  off : Bool
  scope : Option Target
  sub : Option JsString
  overrides : List Override

def MIN : ℤ := 60000
def DAY : ℤ := 24 * 60 * MIN

/-- `rule`: a default rule. -/
def rule (id : DefaultId) (metric : Metric) (threshold : ℚ) (forMin : ℤ) (severity : Severity)
    (clear : Option ℚ) : Rule where
  id := .default id
  name := none
  metric := metric
  op := .ge
  threshold := threshold
  forTime := forMin * MIN
  clear := clear
  severity := severity
  repeatTime := DAY
  off := false
  scope := none
  sub := none
  overrides := []

def DEFAULT_RULES : List Rule := [
  rule .offline .offline 1 0 .critical none,
  rule .diskFull .diskUsed 90 5 .warning (some 88),
  rule .diskCritical .diskUsed 95 5 .critical (some 93),
  rule .memory .mem 90 10 .warning none,
  rule .cpu .cpu 95 15 .warning none,
  rule .temperature .temp 85 5 .warning none,
  rule .containerDown .containerDown 1 2 .warning none,
  rule .failedUnits .failedUnits 1 5 .warning none,
  rule .rebootRequired .rebootRequired 1 0 .info none,
  rule .securityUpdates .securityUpdates 1 0 .info none]

/-! ### The rules a person set -/

/-- What a file may change in a default rule; an absent field leaves the default's. -/
structure Changes where
  threshold : Option ℚ
  forMin : Option ℤ
  clear : Option (Option ℚ)
  severity : Option Severity
  off : Option Bool
  overrides : Option (List Override)

/-- A rule of a person's own, as the file keeps it. -/
structure OwnRule where
  id : { s : JsString // isCustomId s = true }
  name : JsString
  metric : Metric
  op : Op
  threshold : ℚ
  forMin : ℤ
  clear : Option ℚ
  severity : Severity
  off : Bool
  scope : Option Target
  sub : Option JsString
  overrides : List Override

/-- An entry of `rules.json`. -/
inductive SavedRule
  | change (id : DefaultId) (c : Changes)
  | own (r : OwnRule)

/-- `{ ...d, ...edit(c) }`: a default rule with a file's changes. -/
def Rule.edit (d : Rule) (c : Changes) : Rule :=
  { d with
    threshold := c.threshold.getD d.threshold
    forTime := (c.forMin.map (· * MIN)).getD d.forTime
    clear := c.clear.getD d.clear
    severity := c.severity.getD d.severity
    off := c.off.getD d.off
    overrides := c.overrides.getD d.overrides }

def OwnRule.toRule (r : OwnRule) : Rule where
  id := .own r.id
  name := some r.name
  metric := r.metric
  op := r.op
  threshold := r.threshold
  forTime := r.forMin * MIN
  clear := r.clear
  severity := r.severity
  repeatTime := DAY
  off := r.off
  scope := r.scope
  sub := r.sub
  overrides := r.overrides

/-- The changes the file makes to the rule with the id `id`. -/
def changesOf (saved : List SavedRule) (id : RuleId) : Option Changes :=
  saved.findSome? fun s => match s with
    | .change d c => if RuleId.default d = id then some c else none
    | .own _ => none

/-- `buildRules`: every default rule, changed where the file says, then the person's own. -/
def buildRules (saved : List SavedRule) : List Rule :=
  (DEFAULT_RULES.map fun d => ((changesOf saved d.id).map d.edit).getD d) ++
    saved.filterMap fun s => match s with
      | .change _ _ => none
      | .own r => some r.toRule

/-- What `checkRules` takes for the offline rule: a file changes its severity and turns it off, as a whole or for a
node or tag, but changes none of its levels and times. -/
def SavedRule.fitsOffline : SavedRule → Bool
  | .change .offline c => c.threshold.isNone && c.forMin.isNone && c.clear.all Option.isNone &&
      (c.overrides.getD []).all fun o => o.threshold.isNone
  | _ => true

/-! ### A rule as it holds for one node -/

/-- A node as the engine is told of it. -/
structure Node where
  id : NodeId
  name : JsString
  tags : List JsString

/-- Does the target name the node?  An empty tag names none. -/
def Target.covers (node : Node) : Target → Bool
  | .node id => id == node.id
  | .tag t => t != [] && node.tags.contains t

/-- `forNode`: `none` when the rule is off, out of its scope or turned off for the node; else the rule with the
node's threshold, its clear value moved along.  The node's own override wins over its tag's. -/
def forNode (r : Rule) (node : Node) : Option Rule :=
  if r.off then none
  else if r.scope.any fun s => !s.covers node && s != .tag [] then none
  else
    let own := r.overrides.find? fun o => o.who == .node node.id
    let tagged := r.overrides.find? fun o => match o.who with
      | .node _ => false
      | .tag t => t != [] && node.tags.contains t
    match own.or tagged with
    | none => some r
    | some ov => ov.threshold.map fun th => { r with threshold := th, clear := r.clear.map (· + (th - r.threshold)) }

/-- A rule as it holds for a node differs from the rule in its levels only. -/
theorem forNode_eq {r r' : Rule} {node : Node} (h : forNode r node = some r') :
    r' = { r with threshold := r'.threshold, clear := r'.clear } := by
  unfold forNode at h
  split at h
  · cases h
  · split at h
    · cases h
    · dsimp only at h
      split at h
      · cases h; rfl
      · obtain ⟨th, -, rfl⟩ := Option.map_eq_some_iff.1 h
        rfl

theorem forNode_id {r r' : Rule} {node : Node} (h : forNode r node = some r') : r'.id = r.id := by
  rw [forNode_eq h]

theorem forNode_metric {r r' : Rule} {node : Node} (h : forNode r node = some r') : r'.metric = r.metric := by
  rw [forNode_eq h]

theorem forNode_repeatTime {r r' : Rule} {node : Node} (h : forNode r node = some r') :
    r'.repeatTime = r.repeatTime := by
  rw [forNode_eq h]

/-! ### The rules the engine gets -/

/-- Every rule of the engine repeats once a day. -/
theorem repeatTime_of_mem_buildRules {saved : List SavedRule} {r : Rule} (h : r ∈ buildRules saved) :
    r.repeatTime = DAY := by
  simp only [buildRules, List.mem_append, List.mem_map, List.mem_filterMap] at h
  rcases h with ⟨d, hd, rfl⟩ | ⟨s, -, hs⟩
  · have hday : d.repeatTime = DAY := by
      revert d
      simp [DEFAULT_RULES, rule]
    cases changesOf saved d.id <;> exact hday
  · cases s with
    | change d c => cases hs
    | own r' => cases hs; rfl

/-- The offline rule, changed where the file says. -/
def offlineRule (saved : List SavedRule) : Rule :=
  let d := rule .offline .offline 1 0 .critical none
  ((changesOf saved d.id).map d.edit).getD d

/-- The offline rule is the first of the engine's rules, and the only one with its id. -/
theorem buildRules_eq_cons (saved : List SavedRule) :
    ∃ rest, buildRules saved = offlineRule saved :: rest ∧ ∀ r ∈ rest, r.id ≠ .default .offline := by
  refine ⟨_, rfl, fun r hr => ?_⟩
  rcases List.mem_append.1 hr with hr | hr
  · have hdefault : ∀ d : DefaultId, d ≠ .offline → ∀ r₀ : Rule, r₀.id = .default d →
        (((changesOf saved r₀.id).map r₀.edit).getD r₀).id ≠ .default .offline := by
      intro d hd r₀ hr₀
      have hid : (((changesOf saved r₀.id).map r₀.edit).getD r₀).id = .default d := by
        cases changesOf saved r₀.id <;> exact hr₀
      rw [hid]
      exact fun h => hd (RuleId.default.inj h)
    obtain ⟨r₀, hr₀, rfl⟩ := List.mem_map.1 hr
    simp only [List.mem_cons, List.not_mem_nil, or_false] at hr₀
    rcases hr₀ with rfl | rfl | rfl | rfl | rfl | rfl | rfl | rfl | rfl <;>
      exact hdefault _ (by decide) _ rfl
  · obtain ⟨s, -, hs⟩ := List.mem_filterMap.1 hr
    cases s with
    | change d c => cases hs
    | own r' =>
      cases hs
      exact RuleId.noConfusion

/-- The offline rule of accepted files: firing while the value is 1 or more, without a clear level. -/
structure Rule.IsOffline (r : Rule) : Prop where
  id : r.id = .default .offline
  metric : r.metric = .offline
  op : r.op = .ge
  threshold : r.threshold = 1
  clear : r.clear = none
  overrides : ∀ o ∈ r.overrides, o.threshold = none

theorem isOffline_offlineRule {saved : List SavedRule} (h : saved.all SavedRule.fitsOffline = true) :
    (offlineRule saved).IsOffline := by
  unfold offlineRule
  dsimp only
  cases hc : changesOf saved (rule .offline .offline 1 0 .critical none).id with
  | none => exact ⟨rfl, rfl, rfl, rfl, rfl, by simp [rule]⟩
  | some c =>
    obtain ⟨s, hs, hsc⟩ := List.exists_of_findSome?_eq_some hc
    have hfits := List.all_eq_true.1 h s hs
    cases s with
    | own r => cases hsc
    | change d c' =>
      simp only [rule, RuleId.default.injEq, Option.ite_none_right_eq_some, Option.some.injEq] at hsc
      obtain ⟨rfl, rfl⟩ := hsc
      simp only [SavedRule.fitsOffline, Bool.and_eq_true, Option.isNone_iff_eq_none, List.all_eq_true] at hfits
      obtain ⟨⟨⟨hth, -⟩, hclear⟩, hov⟩ := hfits
      refine ⟨rfl, rfl, rfl, ?_, ?_, ?_⟩
      · show c'.threshold.getD _ = 1
        rw [hth]
        rfl
      · show c'.clear.getD none = none
        cases hcl : c'.clear with
        | none => rfl
        | some o =>
          rw [hcl] at hclear
          exact Option.isNone_iff_eq_none.1 hclear
      · intro o ho
        exact hov o ho

/-- The offline rule of accepted files is turned off for a node or holds there as it is. -/
theorem Rule.IsOffline.forNode {r r' : Rule} (h : r.IsOffline) {node : Node} (hr : forNode r node = some r') :
    r' = r := by
  unfold Servitals.forNode at hr
  split at hr
  · cases hr
  · split at hr
    · cases hr
    · dsimp only at hr
      split at hr
      · cases hr; rfl
      · rename_i ov hov
        have hmem : ov ∈ r.overrides := by
          rcases Option.or_eq_some_iff.1 hov with hov | ⟨-, hov⟩
          · exact List.mem_of_find?_eq_some hov
          · exact List.mem_of_find?_eq_some hov
        rw [h.overrides ov hmem] at hr
        cases hr

end Servitals
