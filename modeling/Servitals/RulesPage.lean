import Servitals.RuleLevels

/-!
# The rules editor

`rulesRows` and `rulesFile` of `www/js/alerts.js`: the saved rules file as the rows of the page's form, and the rows back
to a file, which keeps of a default rule what differs from it.

A saved file passes the check again unchanged (`checkRules_fileJson`).  The rows name a server by the text of its value,
so the file that the page makes of its own rows builds the engine's rules again when the saved file names every server
by a string, and only then (`saved_again`).
-/

namespace Servitals

/-! ### The saved file as JSON -/

def Who.member : Who → JsString × Json
  | .node v => (js "node", v)
  | .tag t => (js "tag", .str t)

def FileOverride.toJson (o : FileOverride) : Json :=
  .obj [o.who.member, match o.threshold with
    | none => (js "off", .bool true)
    | some x => (js "threshold", .num (some x))]

namespace RulesFile

def ofNum (x : ℚ) : Json := .num (some x)

def ofClear (clear : Option ℚ) : Json := (clear.map ofNum).getD .null

def ofOff (off : Bool) : Option Json := if off then some (.bool true) else none

def ofOverrides (os : List FileOverride) : Option Json :=
  if os.isEmpty then none else some (.arr (os.map FileOverride.toJson))

end RulesFile

open RulesFile in
/-- What the file keeps of a change, by its names. -/
def FileChange.fields (d : DefaultId) (c : FileChange) : List (JsString × Option Json) := [
  (js "id", some (.str d.str)),
  (js "threshold", c.threshold.map ofNum),
  (js "for", c.forMin.map fun (m : ℤ) => ofNum m),
  (js "clear", c.clear.map ofClear),
  (js "severity", c.severity.map fun s => .str s.str),
  (js "off", ofOff c.off),
  (js "overrides", ofOverrides c.overrides)]

open RulesFile in
def FileOwn.fields (r : FileOwn) : List (JsString × Option Json) := [
  (js "id", some (.str r.id.1)),
  (js "name", some (.str r.name)),
  (js "metric", some r.metric),
  (js "op", some (.str r.op.str)),
  (js "threshold", some (ofNum r.threshold)),
  (js "scope", some (.obj (r.scope.toList.map Who.member))),
  (js "sub", r.sub.map .str),
  (js "for", some (ofNum r.forMin)),
  (js "clear", some (ofClear r.clear)),
  (js "severity", some (.str r.severity.str)),
  (js "off", ofOff r.off),
  (js "overrides", ofOverrides r.overrides)]

def FileRule.toJson : FileRule → Json
  | .change d c => .obj (Json.clean (c.fields d))
  | .own r => .obj (Json.clean r.fields)

/-- The file as it is saved. -/
def fileJson (f : List FileRule) : Json := .obj [(js "rules", .arr (f.map FileRule.toJson))]

/-! ### Rows -/

/-- An override as the page has it: what it names as one string. -/
structure RowOverride where
  who : JsString
  threshold : Option ℚ
  off : Bool

/-- A row of the form; a default rule's has no name, scope and sub. -/
structure Row where
  id : JsString
  own : Bool
  name : JsString
  metric : Json
  op : Op
  threshold : ℚ
  forMin : ℤ
  clear : Option ℚ
  severity : Severity
  on : Bool
  scope : JsString
  sub : JsString
  overrides : List RowOverride

namespace RulesFile

/-- `"node:" + o.node` or `"tag:" + o.tag` -/
def rowWho : Who → JsString
  | .node v => js "node:" ++ (asText v).getD []
  | .tag t => js "tag:" ++ t

/-- `{ node: w.slice(5) }` or `{ tag: w.slice(4) }` -/
def who (w : JsString) : JsString × Json :=
  if (js "node:").isPrefixOf w then (js "node", .str (w.drop 5)) else (js "tag", .str (w.drop 4))

def rowOverrides (os : List FileOverride) : List RowOverride :=
  os.map fun o => ⟨rowWho o.who, o.threshold, o.threshold.isNone⟩

/-- The minutes of a default rule, as `defaultsForPage` sends them. -/
def minutes (d : DefaultId) : ℤ := d.rule.forTime / MIN

/-- `list.find(r => r.id === d.id) || {}` -/
def changeAt (saved : List FileRule) (d : DefaultId) : FileChange :=
  (changeOf saved d).getD ⟨none, none, none, none, false, []⟩

/-- The row of a default rule. -/
def defaultRow (d : DefaultId) (c : FileChange) : Row where
  id := d.str
  own := false
  name := []
  metric := .str d.rule.metric.str
  op := d.rule.op
  threshold := c.threshold.getD d.rule.threshold
  forMin := c.forMin.getD (minutes d)
  clear := c.clear.getD d.rule.clear
  severity := c.severity.getD d.rule.severity
  on := !c.off
  scope := []
  sub := []
  overrides := rowOverrides c.overrides

def ownRow (r : FileOwn) : Row where
  id := r.id.1
  own := true
  name := r.name
  metric := r.metric
  op := r.op
  threshold := r.threshold
  forMin := r.forMin
  clear := r.clear
  severity := r.severity
  on := !r.off
  scope := (r.scope.map rowWho).getD []
  sub := r.sub.getD []
  overrides := rowOverrides r.overrides

/-- `rulesRows` -/
def rulesRows (saved : List FileRule) : List Row :=
  (DefaultId.all.map fun d => defaultRow d (changeAt saved d)) ++ (saved.filterMap ownOf).map ownRow

/-! ### Rows back to the file -/

def ofRowOverride (o : RowOverride) : Json :=
  .obj [who o.who, if o.off then (js "off", .bool true) else (js "threshold", ((o.threshold.map ofNum).getD .null))]

def ofRowOverrides (os : List RowOverride) : Option Json :=
  if os.isEmpty then none else some (.arr (os.map ofRowOverride))

/-- What a default rule's row has besides its id: what differs from the default. -/
def differences (d : DefaultId) (r : Row) : List (JsString × Option Json) := [
  (js "threshold", if d ≠ .offline ∧ r.threshold ≠ d.rule.threshold then some (ofNum r.threshold) else none),
  (js "for", if d ≠ .offline ∧ r.forMin ≠ minutes d then some (ofNum r.forMin) else none),
  (js "clear", if d ≠ .offline ∧ r.clear ≠ d.rule.clear then some (ofClear r.clear) else none),
  (js "severity", if r.severity ≠ d.rule.severity then some (.str r.severity.str) else none),
  (js "off", ofOff !r.on),
  (js "overrides", ofRowOverrides r.overrides)]

/-- A row of one's own. -/
def ownFields (r : Row) : List (JsString × Option Json) := [
  (js "id", some (.str r.id)),
  (js "name", some (.str r.name)),
  (js "metric", some r.metric),
  (js "op", some (.str r.op.str)),
  (js "threshold", some (ofNum r.threshold)),
  (js "for", some (ofNum r.forMin)),
  (js "clear", some (ofClear r.clear)),
  (js "severity", some (.str r.severity.str)),
  (js "scope", some (.obj (if r.scope.isEmpty then [] else [who r.scope]))),
  (js "sub", if r.sub.isEmpty then none else some (.str r.sub)),
  (js "off", ofOff !r.on),
  (js "overrides", ofRowOverrides r.overrides)]

/-- A row as a rule of the file; none for a default rule as it is. -/
def ofRow (r : Row) : Option Json :=
  match if r.own then none else defaultIdOf r.id with
  | some d =>
    let c := Json.clean (differences d r)
    if c.isEmpty then none else some (.obj ((js "id", .str r.id) :: c))
  | none => some (.obj (Json.clean (ownFields r)))

/-- `rulesFile` -/
def rulesFile (rows : List Row) : Json := .obj [(js "rules", .arr (rows.filterMap ofRow))]

/-! ### What the check knows of a saved rule -/

/-- A server by a value whose text is an id, or a tag. -/
def WhoSound : Who → Prop
  | .node v => (asText v).any isNodeId = true
  | .tag t => isTag t = true

structure OverridesSound (offline : Bool) (metric : Json) (os : List FileOverride) : Prop where
  length : os.length ≤ MAX_OVERRIDES
  once : (os.map fun o => keyOf o.who).Nodup
  who : ∀ o ∈ os, WhoSound o.who
  level : ∀ o ∈ os, ∀ x, o.threshold = some x → offline = false ∧ isYesno metric = false ∧ |x| ≤ 10 ^ 9

structure ChangeSound (d : DefaultId) (c : FileChange) : Prop where
  threshold : ∀ x, c.threshold = some x → d ≠ .offline ∧ |x| ≤ 10 ^ 9
  forMin : ∀ m, c.forMin = some m → d ≠ .offline ∧ 0 ≤ m ∧ m ≤ 10080
  clear : ∀ x, c.clear = some (some x) → d ≠ .offline ∧ |x| ≤ 10 ^ 9
  overrides : OverridesSound (d == .offline) (.str d.rule.metric.str) c.overrides
  near : (c.clear.getD d.rule.clear).any (isFar d.rule.op (c.threshold.getD d.rule.threshold)) = false

structure OwnSound (r : FileOwn) : Prop where
  name : trim r.name = r.name ∧ r.name ≠ [] ∧ r.name.length ≤ 60 ∧ r.name.any isControl = false
  metric : (metricInfo r.metric).isSome = true
  threshold : |r.threshold| ≤ 10 ^ 9
  scope : ∀ w, r.scope = some w → WhoSound w
  sub : ∀ s, r.sub = some s → s ≠ [] ∧ metricInfo r.metric = some true ∧ s.length ≤ 200 ∧ s.any isControl = false
  forMin : 0 ≤ r.forMin ∧ r.forMin ≤ 10080
  clear : ∀ x, r.clear = some x → |x| ≤ 10 ^ 9
  overrides : OverridesSound false r.metric r.overrides
  near : r.clear.any (isFar r.op r.threshold) = false

def RuleSound : FileRule → Prop
  | .change d c => ChangeSound d c
  | .own r => OwnSound r

section
variable {nodeIds : Option (List JsString)} {here : JsString}

private theorem num_eq_some {v : Json} {x : ℚ} (h : num v = some x) : |x| ≤ 10 ^ 9 := by
  unfold num at h
  split at h
  · split at h
    · cases h
      assumption
    · cases h
  · cases h

private theorem num_ofNum {x : ℚ} (h : |x| ≤ 10 ^ 9) : num (ofNum x) = some x := if_pos h

private theorem whoSound_of_checkTarget {v : Json} {w : Who} (h : checkTarget nodeIds here v = .ok (some w)) :
    WhoSound w := by
  unfold checkTarget at h
  split at h
  · split at h
    · rename_i hknown
      cases h
      exact (Bool.and_eq_true_iff.1 hknown).1
    · cases h
  · split at h
    · cases h
      assumption
    · cases h
  · cases h
  · cases h

private theorem checkTarget_member {w : Who} (h : WhoSound w) (rest : List (JsString × Json))
    (hrest : ∀ e ∈ rest, e.1 ≠ js "node" ∧ e.1 ≠ js "tag") :
    checkTarget none here (.obj (w.member :: rest)) = .ok (some w) := by
  have hnone : ∀ k, (k = js "node" ∨ k = js "tag") → Json.member rest k = none := by
    rintro k hk
    rw [Json.member_eq_none, List.mem_map]
    rintro ⟨e, he, rfl⟩
    exact hk.elim (hrest e he).1 (hrest e he).2
  cases w with
  | node v =>
    have hknown : known none v = true := by
      rw [known, show (asText v).any isNodeId = true from h]
      rfl
    simp [checkTarget, Who.member, Json.member_cons, hknown]
  | tag t =>
    have htag : isTag t = true := h
    have hne : js "tag" ≠ js "node" := by decide
    simp [checkTarget, Who.member, Json.member_cons, hne, hnone, htag]

private theorem level_of_checkLevel {offline : Bool} {metric o : Json} {th : Option ℚ}
    (h : checkLevel here offline metric o = .ok th) :
    ∀ x, th = some x → offline = false ∧ isYesno metric = false ∧ |x| ≤ 10 ^ 9 := by
  unfold checkLevel at h
  split at h
  · cases h
    exact fun x hx => by cases hx
  · split at h
    · cases h
    · rename_i hoffline
      split at h
      · cases h
      · rename_i hyesno
        split at h
        · rename_i y hy
          cases h
          obtain ⟨v, -, hv⟩ := Option.bind_eq_some_iff.1 hy
          rintro x ⟨⟩
          exact ⟨by simpa using hoffline, by simpa using hyesno, num_eq_some hv⟩
        · cases h

private theorem of_checkOverride {offline : Bool} {metric o : Json} {whos : List JsString} {x : FileOverride}
    (h : checkOverride nodeIds here offline metric whos o = .ok x) :
    WhoSound x.who ∧ keyOf x.who ∉ whos ∧
      ∀ y, x.threshold = some y → offline = false ∧ isYesno metric = false ∧ |y| ≤ 10 ^ 9 := by
  unfold checkOverride at h
  split at h
  · cases h
  · cases htarget : checkTarget nodeIds here o with
    | error e =>
      rw [htarget] at h
      cases h
    | ok target =>
      rw [htarget] at h
      dsimp only [Except.bind] at h
      cases target with
      | none => cases h
      | some w =>
        dsimp only at h
        split at h
        · cases h
        · rename_i hkey
          cases hlevel : checkLevel here offline metric o with
          | error e =>
            rw [hlevel] at h
            cases h
          | ok th =>
            rw [hlevel] at h
            cases h
            exact ⟨whoSound_of_checkTarget htarget, by simpa using hkey, level_of_checkLevel hlevel⟩

theorem of_checkEach {offline : Bool} {metric : Json} {k : ℕ} {whos : List JsString} {os : List Json}
    {xs : List FileOverride} (h : checkEach nodeIds here offline metric k whos os = .ok xs) :
    xs.length = os.length ∧ (xs.map fun x => keyOf x.who).Nodup ∧ (∀ x ∈ xs, keyOf x.who ∉ whos) ∧
      ∀ x ∈ xs, WhoSound x.who ∧
        ∀ y, x.threshold = some y → offline = false ∧ isYesno metric = false ∧ |y| ≤ 10 ^ 9 := by
  induction os generalizing k whos xs with
  | nil =>
    cases h
    exact ⟨rfl, List.nodup_nil, by simp, by simp⟩
  | cons o os ih =>
    unfold checkEach at h
    cases hx : checkOverride nodeIds (here ++ js ": override " ++ js (toString (k + 1))) offline metric whos o with
    | error e =>
      rw [hx] at h
      cases h
    | ok x =>
      rw [hx] at h
      dsimp only [Except.bind] at h
      cases hrest : checkEach nodeIds here offline metric (k + 1) (whos ++ [keyOf x.who]) os with
      | error e =>
        rw [hrest] at h
        cases h
      | ok ys =>
        rw [hrest] at h
        cases h
        obtain ⟨hlen, hnodup, hnew, hall⟩ := ih hrest
        obtain ⟨hwho, hkey, hlevel⟩ := of_checkOverride hx
        refine ⟨by rw [List.length_cons, List.length_cons, hlen], ?_, ?_, ?_⟩
        · rw [List.map_cons, List.nodup_cons]
          refine ⟨fun hmem => ?_, hnodup⟩
          obtain ⟨y, hy, heq⟩ := List.mem_map.1 hmem
          exact hnew y hy (heq ▸ List.mem_append_right _ (List.mem_singleton_self _))
        · rw [List.forall_mem_cons]
          exact ⟨hkey, fun y hy hmem => hnew y hy (List.mem_append_left _ hmem)⟩
        · rw [List.forall_mem_cons]
          exact ⟨⟨hwho, hlevel⟩, hall⟩

private theorem overridesSound_of_check {offline : Bool} {metric : Json} {v : Option Json} {xs : List FileOverride}
    (h : checkOverrides nodeIds here offline metric v = .ok xs) : OverridesSound offline metric xs := by
  unfold checkOverrides at h
  split at h
  · cases h
    exact ⟨Nat.zero_le _, List.nodup_nil, by simp, by simp⟩
  · split at h
    · cases h
    · rename_i hlen
      obtain ⟨hlen', hnodup, -, hall⟩ := of_checkEach h
      exact ⟨by omega, hnodup, fun o ho => (hall o ho).1, fun o ho => (hall o ho).2⟩
  · cases h

private theorem checkOverride_toJson {offline : Bool} {metric : Json} {whos : List JsString} {x : FileOverride}
    (hwho : WhoSound x.who) (hkey : keyOf x.who ∉ whos)
    (hlevel : ∀ y, x.threshold = some y → offline = false ∧ isYesno metric = false ∧ |y| ≤ 10 ^ 9) :
    checkOverride none here offline metric whos x.toJson = .ok x := by
  obtain ⟨w, th⟩ := x
  have hcontains : whos.contains (keyOf w) = false := by simpa using hkey
  have hone : ∀ e : JsString × Json, e.1 ≠ js "node" ∧ e.1 ≠ js "tag" →
      ((Json.obj [w.member, e]).get (js "node")).isSome ≠ ((Json.obj [w.member, e]).get (js "tag")).isSome := by
    rintro e ⟨hnode, htag⟩
    have hne : js "tag" ≠ js "node" := by decide
    cases w <;> simp [Who.member, Json.member_cons, hnode, htag, hne, hne.symm]
  have hother : ∀ k : JsString, k ≠ js "node" ∧ k ≠ js "tag" → ∀ v, (Json.obj [w.member, (k, v)]).get k = some v := by
    rintro k ⟨hnode, htag⟩ v
    cases w <;> simp [Who.member, Json.member_cons, hnode.symm, htag.symm]
  have hoff : js "off" ≠ js "node" ∧ js "off" ≠ js "tag" := by decide
  have hth : js "threshold" ≠ js "node" ∧ js "threshold" ≠ js "tag" := by decide
  have hcheck : ∀ e : JsString × Json, e.1 ≠ js "node" ∧ e.1 ≠ js "tag" →
      checkOverride none here offline metric whos (.obj [w.member, e]) =
        (checkLevel here offline metric (.obj [w.member, e])).map fun threshold => ⟨w, threshold⟩ := by
    intro e he
    have htarget : checkTarget none here (.obj [w.member, e]) = .ok (some w) :=
      checkTarget_member hwho [e] (by simpa using he)
    unfold checkOverride
    rw [if_neg (by simpa [Json.isObj] using hone e he), htarget]
    dsimp only [Except.bind]
    rw [hcontains, if_neg Bool.false_ne_true]
  unfold FileOverride.toJson
  cases th with
  | none =>
    dsimp only
    rw [hcheck _ hoff, checkLevel, hother _ hoff]
    rfl
  | some y =>
    obtain ⟨hoffline, hyesno, hy⟩ := hlevel y rfl
    have hnot : (Json.obj [w.member, (js "threshold", .num (some y))]).get (js "off") = none := by
      have hne : js "threshold" ≠ js "off" := by decide
      cases w <;> simp [Who.member, Json.member_cons, hoff.1.symm, hoff.2.symm, hne]
    dsimp only
    rw [hcheck _ hth, checkLevel, hnot, hother _ hth, hoffline, hyesno]
    simp only [Bool.false_eq_true, if_false, Option.bind_some]
    rw [show num (.num (some y)) = some y from num_ofNum hy]
    rfl

private theorem checkEach_toJson {offline : Bool} {metric : Json} {k : ℕ} {whos : List JsString}
    {xs : List FileOverride}
    (hnodup : (xs.map fun x => keyOf x.who).Nodup) (hnew : ∀ x ∈ xs, keyOf x.who ∉ whos)
    (hwho : ∀ x ∈ xs, WhoSound x.who)
    (hlevel : ∀ x ∈ xs, ∀ y, x.threshold = some y → offline = false ∧ isYesno metric = false ∧ |y| ≤ 10 ^ 9) :
    checkEach none here offline metric k whos (xs.map FileOverride.toJson) = .ok xs := by
  induction xs generalizing k whos with
  | nil => rfl
  | cons x xs ih =>
    rw [List.map_cons, List.nodup_cons] at hnodup
    rw [List.forall_mem_cons] at hnew hwho hlevel
    have hrest : ∀ y ∈ xs, keyOf y.who ∉ whos ++ [keyOf x.who] := by
      intro y hy hmem
      rcases List.mem_append.1 hmem with hmem | hmem
      · exact hnew.2 y hy hmem
      · exact hnodup.1 (List.mem_map.2 ⟨y, hy, List.mem_singleton.1 hmem⟩)
    rw [List.map_cons]
    unfold checkEach
    rw [checkOverride_toJson hwho.1 hnew.1 hlevel.1]
    dsimp only [Except.bind]
    rw [ih hnodup.2 hrest hwho.2 hlevel.2]
    rfl

private theorem checkOverrides_ofOverrides {offline : Bool} {metric : Json} {xs : List FileOverride}
    (h : OverridesSound offline metric xs) :
    checkOverrides none here offline metric (ofOverrides xs) = .ok xs := by
  unfold ofOverrides
  split
  · rename_i hempty
    rw [List.isEmpty_iff.1 hempty]
    rfl
  · unfold checkOverrides
    dsimp only
    rw [if_neg (by rw [List.length_map]; exact not_lt.2 h.length)]
    exact checkEach_toJson h.once (fun x _ => List.not_mem_nil) h.who h.level

private theorem of_checkMinutes {v : Json} {m : ℤ} (h : checkMinutes here v = .ok m) : 0 ≤ m ∧ m ≤ 10080 := by
  unfold checkMinutes at h
  split at h
  · split at h
    · rename_i x hx
      cases h
      have hnum : (x.num : ℚ) = x := (Rat.den_eq_one_iff x).1 (by simpa [Rat.isInt] using hx.1)
      rw [← hnum] at hx
      exact ⟨by exact_mod_cast hx.2.1, by exact_mod_cast hx.2.2⟩
    · cases h
  · cases h

private theorem checkMinutes_ofNum {m : ℤ} (h : 0 ≤ m ∧ m ≤ 10080) : checkMinutes here (ofNum m) = .ok m := by
  have hle : (0 : ℚ) ≤ m ∧ (m : ℚ) ≤ 10080 := ⟨by exact_mod_cast h.1, by exact_mod_cast h.2⟩
  show (if _ then _ else _) = _
  rw [if_pos ⟨by simp [Rat.isInt], hle.1, hle.2⟩]
  simp

private theorem of_checkClear {offline : Bool} {v : Json} {clear : Option ℚ}
    (h : checkClear here offline v = .ok clear) :
    ∀ x, clear = some x → offline = false ∧ |x| ≤ 10 ^ 9 := by
  unfold checkClear at h
  split at h
  · cases h
    exact fun x hx => by cases hx
  · split at h
    · cases h
    · rename_i hoffline
      split at h
      · rename_i y hy
        cases h
        rintro x ⟨⟩
        exact ⟨by simpa using hoffline, num_eq_some hy⟩
      · cases h

private theorem checkClear_ofClear {offline : Bool} {clear : Option ℚ}
    (h : ∀ x, clear = some x → offline = false ∧ |x| ≤ 10 ^ 9) : checkClear here offline (ofClear clear) = .ok clear := by
  cases clear with
  | none => rfl
  | some x =>
    obtain ⟨hoffline, hx⟩ := h x rfl
    show checkClear here offline (ofNum x) = _
    have hnum : num (Json.num (some x)) = some x := num_ofNum hx
    simp [checkClear, ofNum, hoffline, hnum]

private theorem checkSeverity_str (s : Severity) : checkSeverity here (some (.str s.str)) = .ok s := by
  cases s <;> rfl

private theorem checkOff_ofOff (off : Bool) : checkOff here (ofOff off) = .ok off := by
  cases off <;> rfl

private theorem of_checkThreshold {v : Option Json} {x : ℚ} (h : checkThreshold here v = .ok x) : |x| ≤ 10 ^ 9 := by
  unfold checkThreshold at h
  split at h
  · rename_i y hy
    cases h
    obtain ⟨w, -, hw⟩ := Option.bind_eq_some_iff.1 hy
    exact num_eq_some hw
  · cases h

private theorem checkThreshold_ofNum {x : ℚ} (h : |x| ≤ 10 ^ 9) : checkThreshold here (some (ofNum x)) = .ok x := by
  rw [checkThreshold, Option.bind_some, num_ofNum h]

/-- An optional field that is there passed its check. -/
private theorem of_optional {α : Type} {check : Json → Except JsString α} {v : Option Json} {o : Option α}
    (h : optional check v = .ok o) : ∀ a, o = some a → ∃ w, check w = .ok a := by
  rintro a rfl
  cases v with
  | none => cases h
  | some w =>
    rw [optional] at h
    cases hw : check w with
    | error e =>
      rw [hw] at h
      cases h
    | ok b =>
      rw [hw] at h
      cases h
      exact ⟨w, hw⟩

private theorem optional_map {α : Type} {check : Json → Except JsString α} {o : Option α} {f : α → Json}
    (h : ∀ a, o = some a → check (f a) = .ok a) : optional check (o.map f) = .ok o := by
  cases o with
  | none => rfl
  | some a =>
    rw [Option.map_some, optional, h a rfl]
    rfl

private theorem of_notOffline {α : Type} {what : JsString} {d : DefaultId} {check : Json → Except JsString α}
    {v : Json} {a : α}
    (h : notOffline here what d check v = .ok a) : d ≠ .offline ∧ check v = .ok a := by
  unfold notOffline at h
  split at h
  · cases h
  · exact ⟨‹_›, h⟩

private theorem changeSound_of_passes {d : DefaultId} {r : Json} {c : FileChange}
    (h : ChangePasses nodeIds here d r c) :
    ChangeSound d c where
  threshold := by
    intro x hx
    obtain ⟨w, hw⟩ := of_optional h.threshold x hx
    obtain ⟨hd, hcheck⟩ := of_notOffline hw
    exact ⟨hd, of_checkThreshold hcheck⟩
  forMin := by
    intro m hm
    obtain ⟨w, hw⟩ := of_optional h.forMin m hm
    obtain ⟨hd, hcheck⟩ := of_notOffline hw
    exact ⟨hd, of_checkMinutes hcheck⟩
  clear := by
    intro x hx
    obtain ⟨w, hw⟩ := of_optional h.clear _ hx
    obtain ⟨hd, hle⟩ := of_checkClear hw x rfl
    exact ⟨by simpa using hd, hle⟩
  overrides := overridesSound_of_check h.overrides
  near := near_of_check.1 h.near

private theorem changePasses_of_sound {d : DefaultId} {r : Json} {c : FileChange} (h : ChangeSound d c)
    (hget : ∀ e ∈ c.fields d, r.get e.1 = e.2) : ChangePasses none here d r c := by
  simp only [FileChange.fields, List.forall_mem_cons] at hget
  obtain ⟨-, hthreshold, hfor, hclear, hseverity, hoff, hoverrides, -⟩ := hget
  exact {
    threshold := by
      rw [hthreshold]
      refine optional_map fun x hx => ?_
      rw [notOffline, if_neg (h.threshold x hx).1, checkThreshold_ofNum (h.threshold x hx).2]
    forMin := by
      rw [hfor]
      refine optional_map fun m hm => ?_
      rw [notOffline, if_neg (h.forMin m hm).1, checkMinutes_ofNum (h.forMin m hm).2]
    clear := by
      rw [hclear]
      refine optional_map fun o ho => checkClear_ofClear fun x hx => ?_
      obtain ⟨hd, hle⟩ := h.clear x (hx ▸ ho)
      exact ⟨by simpa using hd, hle⟩
    severity := by
      rw [hseverity]
      exact optional_map fun s _ => checkSeverity_str s
    off := by
      rw [hoff]
      exact checkOff_ofOff c.off
    overrides := by
      rw [hoverrides]
      exact checkOverrides_ofOverrides h.overrides
    near := near_of_check.2 h.near }

private theorem of_checkName {v : Option Json} {s : JsString} (h : checkName here v = .ok s) :
    trim s = s ∧ s ≠ [] ∧ s.length ≤ 60 ∧ s.any isControl = false := by
  unfold checkName at h
  split at h
  · split at h
    · cases h
    · rename_i t hnot
      cases h
      simp only [Bool.or_eq_true, beq_iff_eq, decide_eq_true_eq, not_or, not_lt] at hnot
      refine ⟨trim_trim t, hnot.1.1, (trim_sublist t).length_le.trans hnot.1.2, ?_⟩
      rw [List.any_eq_false]
      intro u hu
      have hall : t.any isControl = false := by simpa using hnot.2
      exact List.any_eq_false.1 hall u ((trim_sublist t).subset hu)
  · cases h

private theorem checkName_str {s : JsString} (h : trim s = s ∧ s ≠ [] ∧ s.length ≤ 60 ∧ s.any isControl = false) :
    checkName here (some (.str s)) = .ok s := by
  obtain ⟨htrim, hne, hlen, hcontrol⟩ := h
  unfold checkName
  dsimp only
  rw [if_neg, htrim]
  simp [htrim, hne, hlen, hcontrol]

private theorem checkOp_str (o : Op) : checkOp here (some (.str o.str)) = .ok o := by cases o <;> rfl

private theorem of_checkMetric {v : Option Json} {m : Json} (h : checkMetric here v = .ok m) :
    (metricInfo m).isSome = true := by
  unfold checkMetric at h
  split at h
  · split at h
    · rename_i hinfo
      cases h
      exact hinfo
    · cases h
  · cases h

private theorem checkMetric_self {m : Json} (h : (metricInfo m).isSome = true) :
    checkMetric here (some m) = .ok m := if_pos h

private theorem of_checkSub {metric : Json} {v : Option Json} {o : Option JsString}
    (h : checkSub here metric v = .ok o) :
    ∀ s, o = some s → s ≠ [] ∧ metricInfo metric = some true ∧ s.length ≤ 200 ∧ s.any isControl = false := by
  unfold checkSub at h
  split at h
  · cases h
    exact fun s hs => by cases hs
  · cases h
    exact fun s hs => by cases hs
  · rename_i v hne
    split at h
    · cases h
    · rename_i hinfo
      split at h
      · rename_i s
        split at h
        · cases h
        · rename_i hnot
          cases h
          rintro s ⟨⟩
          simp only [Bool.or_eq_true, decide_eq_true_eq, not_or, not_lt] at hnot
          exact ⟨fun hs => hne (by rw [hs]), by simpa using hinfo, hnot.1, by simpa using hnot.2⟩
      · cases h

private theorem checkSub_str {metric : Json} {o : Option JsString}
    (h : ∀ s, o = some s → s ≠ [] ∧ metricInfo metric = some true ∧ s.length ≤ 200 ∧ s.any isControl = false) :
    checkSub here metric (o.map .str) = .ok o := by
  cases o with
  | none => rfl
  | some s =>
    obtain ⟨hne, hinfo, hlen, hcontrol⟩ := h s rfl
    cases s with
    | nil => exact absurd rfl hne
    | cons u s =>
      unfold checkSub
      simp only [Option.map_some]
      rw [if_neg (by simp [hinfo]), if_neg (by simpa [hcontrol] using hlen)]

private theorem of_checkScope {v : Option Json} {o : Option Who} (h : checkScope nodeIds here v = .ok o) :
    ∀ w, o = some w → WhoSound w := by
  rintro w rfl
  unfold checkScope at h
  split at h
  · cases h
  · split at h
    · cases h
    · exact whoSound_of_checkTarget h

private theorem checkScope_member {o : Option Who} (h : ∀ w, o = some w → WhoSound w) :
    checkScope none here (some (.obj (o.toList.map Who.member))) = .ok o := by
  unfold checkScope
  dsimp only
  cases o with
  | none => rfl
  | some w =>
    have htarget : checkTarget none (here ++ js ": scope") (.obj [w.member]) = .ok (some w) :=
      checkTarget_member (h w rfl) [] (by simp)
    have hne : js "tag" ≠ js "node" := by decide
    rw [if_neg]
    · exact htarget
    · cases w <;> simp [Json.isObj, Who.member, Json.member_cons, hne, hne.symm]

private theorem ownSound_of_passes {r : Json} {c : FileOwn} (h : OwnPasses nodeIds here r c) : OwnSound c where
  name := of_checkName h.name
  metric := of_checkMetric h.metric
  threshold := of_checkThreshold h.threshold
  scope := of_checkScope h.scope
  sub := of_checkSub h.sub
  forMin := of_checkMinutes h.forMin
  clear := fun x hx => (of_checkClear h.clear x hx).2
  overrides := overridesSound_of_check h.overrides
  near := near_of_check.1 h.near

private theorem ownPasses_of_sound {r : Json} {c : FileOwn} (h : OwnSound c) (hget : ∀ e ∈ c.fields, r.get e.1 = e.2) :
    OwnPasses none here r c := by
  simp only [FileOwn.fields, List.forall_mem_cons] at hget
  obtain ⟨-, hname, hmetric, hop, hthreshold, hscope, hsub, hfor, hclear, hseverity, hoff, hoverrides, -⟩ := hget
  exact {
    name := by rw [hname, checkName_str h.name]
    metric := by rw [hmetric, checkMetric_self h.metric]
    op := by rw [hop, checkOp_str]
    threshold := by rw [hthreshold, checkThreshold_ofNum h.threshold]
    scope := by rw [hscope, checkScope_member h.scope]
    sub := by rw [hsub, checkSub_str h.sub]
    forMin := by rw [hfor, Option.getD_some, checkMinutes_ofNum h.forMin]
    clear := by rw [hclear, Option.getD_some, checkClear_ofClear fun x hx => ⟨rfl, h.clear x hx⟩]
    severity := by rw [hseverity, checkSeverity_str]
    off := by rw [hoff, checkOff_ofOff]
    overrides := by rw [hoverrides, checkOverrides_ofOverrides h.overrides]
    near := near_of_check.2 h.near }

/-! ### The saved file passes again -/

private theorem get_clean {fields : List (JsString × Option Json)} (hnodup : (fields.map Prod.fst).Nodup) :
    ∀ e ∈ fields, (Json.obj (Json.clean fields)).get e.1 = e.2 :=
  fun e he => Json.member_clean hnodup (by simpa using he)

private theorem fields_change_nodup (d : DefaultId) (c : FileChange) : ((c.fields d).map Prod.fst).Nodup := by
  show [js "id", js "threshold", js "for", js "clear", js "severity", js "off", js "overrides"].Nodup
  decide

private theorem fields_own_nodup (r : FileOwn) : (r.fields.map Prod.fst).Nodup := by
  show [js "id", js "name", js "metric", js "op", js "threshold", js "scope", js "sub", js "for", js "clear",
    js "severity", js "off", js "overrides"].Nodup
  decide

private theorem rulePasses_of_sound {c : FileRule} (h : RuleSound c) : RulePasses none c.toJson c := by
  cases c with
  | change d c =>
    have hget := get_clean (fields_change_nodup d c)
    exact ⟨hget (js "id", some (.str d.str)) List.mem_cons_self, changePasses_of_sound h hget⟩
  | own r =>
    have hget := get_clean (fields_own_nodup r)
    exact ⟨hget (js "id", some (.str r.id.1)) List.mem_cons_self, ownPasses_of_sound h hget⟩

variable {input : Json} {f : List FileRule}

theorem ruleSound_of_mem (h : checkRules nodeIds input = .ok f) {c : FileRule} (hc : c ∈ f) : RuleSound c := by
  obtain ⟨v, hv⟩ := passes_of_mem h hc
  cases c with
  | change d c => exact changeSound_of_passes hv.2
  | own r => exact ownSound_of_passes hv.2

/-- A file is as long as what was checked, and no id is in it twice. -/
theorem length_of_check (h : checkRules nodeIds input = .ok f) :
    f.length ≤ MAX_RULES ∧ (f.map FileRule.id).Nodup := by
  obtain ⟨rs, -, hlen, hall, hnodup⟩ := checkRules_eq_ok.1 h
  exact ⟨hall.length_eq ▸ hlen, hnodup⟩

/-- A saved file passes the check again, unchanged. -/
theorem checkRules_fileJson (h : checkRules nodeIds input = .ok f) : checkRules none (fileJson f) = .ok f := by
  obtain ⟨hlen, hnodup⟩ := length_of_check h
  refine checkRules_eq_ok.2 ⟨f.map FileRule.toJson, rfl, by rwa [List.length_map], ?_, hnodup⟩
  rw [List.forall₂_map_left_iff, List.forall₂_same]
  exact fun c hc => rulePasses_of_sound (ruleSound_of_mem h hc)

/-! ### The file of the rows -/

/-- The target as the page writes it back. -/
def pageWho : Who → Who
  | .node v => .node (.str ((asText v).getD []))
  | .tag t => .tag t

def pageOverride (o : FileOverride) : FileOverride := { o with who := pageWho o.who }

/-- A change with only what differs from the default. -/
def pageChange (d : DefaultId) (c : FileChange) : FileChange where
  threshold :=
    if d ≠ .offline ∧ c.threshold.getD d.rule.threshold ≠ d.rule.threshold then
      some (c.threshold.getD d.rule.threshold) else none
  forMin := if d ≠ .offline ∧ c.forMin.getD (minutes d) ≠ minutes d then some (c.forMin.getD (minutes d)) else none
  clear :=
    if d ≠ .offline ∧ c.clear.getD d.rule.clear ≠ d.rule.clear then some (c.clear.getD d.rule.clear) else none
  severity :=
    if c.severity.getD d.rule.severity ≠ d.rule.severity then some (c.severity.getD d.rule.severity) else none
  off := c.off
  overrides := c.overrides.map pageOverride

def pageOwn (r : FileOwn) : FileOwn :=
  { r with scope := r.scope.map pageWho, overrides := r.overrides.map pageOverride }

/-- The change of a default rule as the page writes it back, unless it is none. -/
def pageDefault (d : DefaultId) (c : FileChange) : Option FileRule :=
  if (Json.clean (differences d (defaultRow d c))).isEmpty then none else some (.change d (pageChange d c))

/-- The saved file as the page writes it back. -/
def pageFile (f : List FileRule) : List FileRule :=
  DefaultId.all.filterMap (fun d => pageDefault d (changeAt f d)) ++ (f.filterMap ownOf).map fun r => .own (pageOwn r)

private theorem who_rowWho (w : Who) : who (rowWho w) = (pageWho w).member := by
  cases w with
  | node v =>
    have hstarts : (js "node:").isPrefixOf (js "node:" ++ (asText v).getD []) = true := by simp
    unfold who rowWho
    dsimp only
    rw [hstarts, if_pos rfl]
    rfl
  | tag t => rfl

private theorem ofRowOverrides_eq (os : List FileOverride) :
    ofRowOverrides (rowOverrides os) = ofOverrides (os.map pageOverride) := by
  have hone : ∀ o : FileOverride, ofRowOverride ⟨rowWho o.who, o.threshold, o.threshold.isNone⟩ = (pageOverride o).toJson := by
    rintro ⟨w, th⟩
    cases th <;> simp [ofRowOverride, who_rowWho, FileOverride.toJson, pageOverride, ofNum]
  have hmap : (rowOverrides os).map ofRowOverride = (os.map pageOverride).map FileOverride.toJson := by
    rw [rowOverrides, List.map_map, List.map_map]
    exact List.map_congr_left fun o _ => hone o
  unfold ofRowOverrides ofOverrides
  rw [hmap]
  simp [rowOverrides]

private theorem map_some_ite {α β : Type*} {p : Prop} [Decidable p] (g : α → β) (a : α) :
    (if p then some a else none).map g = if p then some (g a) else none := by
  split <;> rfl

private theorem differences_eq (d : DefaultId) (c : FileChange) :
    (js "id", some (.str d.str)) :: differences d (defaultRow d c) = (pageChange d c).fields d := by
  simp only [differences, defaultRow, FileChange.fields, pageChange, ofRowOverrides_eq, Bool.not_not, map_some_ite]
  rfl

private theorem ofRow_defaultRow (d : DefaultId) (c : FileChange) :
    ofRow (defaultRow d c) = (pageDefault d c).map FileRule.toJson := by
  have hid : (if (defaultRow d c).own then none else defaultIdOf (defaultRow d c).id) = some d := by
    rw [if_neg (show ¬ (defaultRow d c).own = true from Bool.false_ne_true)]
    exact defaultIdOf_str d
  unfold ofRow pageDefault
  rw [hid]
  dsimp only
  split
  · rfl
  · rw [Option.map_some, FileRule.toJson, ← differences_eq, Json.clean_cons]
    rfl

private theorem fields_ownRow_nodup (r : Row) : ((ownFields r).map Prod.fst).Nodup := by
  show [js "id", js "name", js "metric", js "op", js "threshold", js "for", js "clear", js "severity", js "scope",
    js "sub", js "off", js "overrides"].Nodup
  decide

private theorem rowWho_ne_nil (w : Who) : rowWho w ≠ [] := by
  cases w <;> exact List.cons_ne_nil _ _

/-- A row of one's own has what the file has, in another order. -/
private theorem fields_ownRow {r : FileOwn} (h : OwnSound r) : ∀ e ∈ (pageOwn r).fields, e ∈ ownFields (ownRow r) := by
  have hscope : (if (ownRow r).scope.isEmpty then [] else [who (ownRow r).scope]) =
      (pageOwn r).scope.toList.map Who.member := by
    unfold ownRow pageOwn
    cases r.scope with
    | none => rfl
    | some w => simp [rowWho_ne_nil, who_rowWho]
  have hsub : (if (ownRow r).sub.isEmpty then none else some (Json.str (ownRow r).sub)) = r.sub.map .str := by
    unfold ownRow
    cases hs : r.sub with
    | none => rfl
    | some s => simp [(h.sub s hs).1]
  intro e he
  simp only [ownFields, hscope, hsub]
  simp only [FileOwn.fields, List.mem_cons, List.not_mem_nil, or_false] at he
  simp only [ownRow, ofRowOverrides_eq, Bool.not_not, List.mem_cons, List.not_mem_nil, or_false]
  rcases he with rfl | rfl | rfl | rfl | rfl | rfl | rfl | rfl | rfl | rfl | rfl | rfl <;> simp [pageOwn]

/-! ### It passes the check -/

private theorem whoSound_pageWho {w : Who} (h : WhoSound w) : WhoSound (pageWho w) := by
  cases w with
  | node v =>
    obtain ⟨s, hs, hid⟩ := (Option.any_eq_true ..).1 (show (asText v).any isNodeId = true from h)
    show (asText (.str ((asText v).getD []))).any isNodeId = true
    rw [hs]
    exact hid
  | tag t => exact h

private theorem keyOf_pageWho (w : Who) : keyOf (pageWho w) = keyOf w := by
  cases w <;> rfl

private theorem overridesSound_page {offline : Bool} {metric : Json} {os : List FileOverride}
    (h : OverridesSound offline metric os) : OverridesSound offline metric (os.map pageOverride) where
  length := by
    rw [List.length_map]
    exact h.length
  once := by
    have hkeys : ((os.map pageOverride).map fun o => keyOf o.who) = os.map fun o => keyOf o.who := by
      rw [List.map_map]
      exact List.map_congr_left fun o _ => keyOf_pageWho o.who
    rw [hkeys]
    exact h.once
  who := by
    rw [List.forall_mem_map]
    exact fun o ho => whoSound_pageWho (h.who o ho)
  level := by
    rw [List.forall_mem_map]
    exact fun o ho => h.level o ho

private theorem ownSound_page {r : FileOwn} (h : OwnSound r) : OwnSound (pageOwn r) where
  name := h.name
  metric := h.metric
  threshold := h.threshold
  scope := by
    intro w hw
    obtain ⟨w, hw', rfl⟩ := Option.map_eq_some_iff.1 hw
    exact whoSound_pageWho (h.scope w hw')
  sub := h.sub
  forMin := h.forMin
  clear := h.clear
  overrides := overridesSound_page h.overrides
  near := h.near

private theorem changeSound_changeAt (h : ∀ c ∈ f, RuleSound c) (d : DefaultId) : ChangeSound d (changeAt f d) := by
  unfold changeAt
  cases hc : changeOf f d with
  | none =>
    have hnear := (show (d.rule.clear).any (isFar d.rule.op d.rule.threshold) = false by cases d <;> decide +kernel)
    exact ⟨by simp, by simp, by simp, ⟨Nat.zero_le _, List.nodup_nil, by simp, by simp⟩, hnear⟩
  | some c =>
    obtain ⟨r, hr, hfound⟩ := List.exists_of_findSome?_eq_some hc
    cases r with
    | own r => cases hfound
    | change d' c' =>
      dsimp only at hfound
      split at hfound
      · rename_i hd
        cases hfound
        subst hd
        exact h _ hr
      · cases hfound

/-- What differs from the default stands for the change. -/
private theorem pageChange_levels {d : DefaultId} {c : FileChange} (h : ChangeSound d c) :
    (pageChange d c).threshold.getD d.rule.threshold = c.threshold.getD d.rule.threshold ∧
      (pageChange d c).forMin.getD (minutes d) = c.forMin.getD (minutes d) ∧
      (pageChange d c).clear.getD d.rule.clear = c.clear.getD d.rule.clear ∧
      (pageChange d c).severity.getD d.rule.severity = c.severity.getD d.rule.severity := by
  have hpick : ∀ {α : Type} [DecidableEq α] (a b : α), (if a ≠ b then some a else none).getD b = a := by
    intro α _ a b
    by_cases hab : a = b <;> simp [hab]
  have hlevel : ∀ {α : Type} [DecidableEq α] (o : Option α) (b : α), (d = .offline → ∀ x, o = some x → x = b) →
      (if d ≠ .offline ∧ o.getD b ≠ b then some (o.getD b) else none).getD b = o.getD b := by
    intro α _ o b hoff
    by_cases hd : d = .offline
    · rw [if_neg (fun hc => hc.1 hd), Option.getD_none]
      cases o with
      | none => rfl
      | some x => exact (hoff hd x rfl).symm
    · simp only [hd, ne_eq, not_false_eq_true, true_and]
      exact hpick _ _
  refine ⟨hlevel _ _ fun hd x hx => absurd hd (h.threshold x hx).1, hlevel _ _ fun hd x hx => absurd hd (h.forMin x hx).1,
    hlevel _ _ fun hd x hx => ?_, hpick _ _⟩
  cases x with
  | none =>
    rw [hd]
    rfl
  | some x => exact absurd hd (h.clear x hx).1

private theorem changeSound_page {d : DefaultId} {c : FileChange} (h : ChangeSound d c) :
    ChangeSound d (pageChange d c) where
  threshold := by
    intro x hx
    unfold pageChange at hx
    dsimp only at hx
    split at hx
    · rename_i hdiff
      cases hx
      cases hc : c.threshold with
      | none => exact absurd (by rw [hc, Option.getD_none]) hdiff.2
      | some y => exact h.threshold y hc
    · cases hx
  forMin := by
    intro m hm
    unfold pageChange at hm
    dsimp only at hm
    split at hm
    · rename_i hdiff
      cases hm
      cases hc : c.forMin with
      | none => exact absurd (by rw [hc, Option.getD_none]) hdiff.2
      | some y => exact h.forMin y hc
    · cases hm
  clear := by
    intro x hx
    unfold pageChange at hx
    dsimp only at hx
    split at hx
    · rename_i hdiff
      have hx := Option.some.inj hx
      cases hc : c.clear with
      | none => exact absurd (by rw [hc, Option.getD_none]) hdiff.2
      | some y =>
        rw [hc, Option.getD_some] at hx
        exact h.clear x (by rw [hc, hx])
    · cases hx
  overrides := overridesSound_page h.overrides
  near := by
    obtain ⟨hthreshold, -, hclear, -⟩ := pageChange_levels h
    rw [hthreshold, hclear]
    exact h.near

private theorem pageDefault_nothing (d : DefaultId) : pageDefault d ⟨none, none, none, none, false, []⟩ = none := by
  have hnothing : Json.clean (differences d (defaultRow d ⟨none, none, none, none, false, []⟩)) = [] := by
    simp [differences, defaultRow, rowOverrides, ofRowOverrides, ofOff, Json.clean]
  rw [pageDefault, hnothing]
  rfl

private theorem id_of_pageDefault {d : DefaultId} {c : FileChange} {r : FileRule} (h : pageDefault d c = some r) :
    r.id = d.str := by
  unfold pageDefault at h
  split at h
  · cases h
  · cases h
    rfl

/-- The page's file has no ids but those of the saved one, each once. -/
private theorem ids_pageFile (hnodup : (f.map FileRule.id).Nodup) :
    ((pageFile f).map FileRule.id).Nodup ∧ (pageFile f).map FileRule.id ⊆ f.map FileRule.id := by
  have hown : ((f.filterMap ownOf).map fun r : FileOwn => r.id.1).Sublist (f.map FileRule.id) := by
    clear hnodup
    induction f with
    | nil => exact .slnil
    | cons c f ih =>
      cases c with
      | change d c => exact ih.cons _
      | own r => exact ih.cons_cons _
  have hdefault : ∀ ds : List DefaultId,
      ((ds.filterMap fun d => pageDefault d (changeAt f d)).map FileRule.id).Sublist (ds.map DefaultId.str) := by
    intro ds
    induction ds with
    | nil => exact .slnil
    | cons d ds ih =>
      rw [List.filterMap_cons, List.map_cons]
      split
      · exact ih.cons _
      · rename_i r hr
        rw [List.map_cons, id_of_pageDefault hr]
        exact ih.cons_cons _
  have hsplit : (pageFile f).map FileRule.id =
      (DefaultId.all.filterMap fun d => pageDefault d (changeAt f d)).map FileRule.id ++
        (f.filterMap ownOf).map fun r => r.id.1 := by
    rw [pageFile, List.map_append, List.map_map]
    rfl
  rw [hsplit]
  constructor
  · refine List.nodup_append.2 ⟨(hdefault _).nodup (by decide), hown.nodup hnodup, ?_⟩
    rintro id hid id' hid' rfl
    obtain ⟨d, -, hd⟩ := List.mem_map.1 ((hdefault _).subset hid)
    obtain ⟨r, -, hr⟩ := List.mem_map.1 hid'
    have hnone := defaultIdOf_custom r.id
    rw [hr, ← hd, defaultIdOf_str] at hnone
    cases hnone
  · rw [List.append_subset]
    refine ⟨fun id hid => ?_, hown.subset⟩
    obtain ⟨r, hr, rfl⟩ := List.mem_map.1 hid
    obtain ⟨d, -, hd⟩ := List.mem_filterMap.1 hr
    rw [id_of_pageDefault hd]
    -- a default rule that the file does not name has nothing to write back
    cases hc : changeOf f d with
    | none =>
      rw [changeAt, hc, Option.getD_none, pageDefault_nothing] at hd
      cases hd
    | some c =>
      obtain ⟨r', hr', hfound⟩ := List.exists_of_findSome?_eq_some hc
      cases r' with
      | own r => cases hfound
      | change d' c' =>
        dsimp only at hfound
        split at hfound
        · rename_i hdd
          subst hdd
          exact List.mem_map.2 ⟨_, hr', rfl⟩
        · cases hfound

/-- The file that the page makes of its own rows passes the check, as the saved file with what the page changes. -/
private theorem checkRules_rulesFile (h : checkRules nodeIds input = .ok f) :
    checkRules none (rulesFile (rulesRows f)) = .ok (pageFile f) := by
  have hsound : ∀ c ∈ f, RuleSound c := fun c hc => ruleSound_of_mem h hc
  obtain ⟨hlen, hnodup⟩ := length_of_check h
  have hdefaults : ∀ ds : List DefaultId, List.Forall₂ (RulePasses none)
      ((ds.map fun d => defaultRow d (changeAt f d)).filterMap ofRow)
      (ds.filterMap fun d => pageDefault d (changeAt f d)) := by
    intro ds
    have heq : (ds.map fun d => defaultRow d (changeAt f d)).filterMap ofRow =
        (ds.filterMap fun d => pageDefault d (changeAt f d)).map FileRule.toJson := by
      rw [List.filterMap_map, List.map_filterMap]
      exact List.filterMap_congr fun d _ => ofRow_defaultRow d (changeAt f d)
    rw [heq, List.forall₂_map_left_iff, List.forall₂_same]
    intro c hc
    obtain ⟨d, -, hd⟩ := List.mem_filterMap.1 hc
    unfold pageDefault at hd
    split at hd
    · cases hd
    · cases hd
      exact rulePasses_of_sound (show ChangeSound d _ from changeSound_page (changeSound_changeAt hsound d))
  have hown : ∀ rs : List FileRule, (∀ c ∈ rs, RuleSound c) → List.Forall₂ (RulePasses none)
      (((rs.filterMap ownOf).map ownRow).filterMap ofRow) ((rs.filterMap ownOf).map fun r => .own (pageOwn r)) := by
    intro rs hrs
    have hsome : ((rs.filterMap ownOf).map ownRow).filterMap ofRow =
        (rs.filterMap ownOf).map fun r => .obj (Json.clean (ownFields (ownRow r))) := by
      rw [List.filterMap_map, ← List.filterMap_eq_map]
      rfl
    rw [hsome, List.forall₂_map_left_iff, List.forall₂_map_right_iff, List.forall₂_same]
    intro r hr
    obtain ⟨c, hc, hcr⟩ := List.mem_filterMap.1 hr
    have hr' : OwnSound r := by
      cases c with
      | change d c => cases hcr
      | own r' =>
        cases hcr
        exact hrs _ hc
    have hget : ∀ e ∈ (pageOwn r).fields, (Json.obj (Json.clean (ownFields (ownRow r)))).get e.1 = e.2 :=
      fun e he => get_clean (fields_ownRow_nodup _) e (fields_ownRow hr' e he)
    exact ⟨hget _ List.mem_cons_self, ownPasses_of_sound (ownSound_page hr') hget⟩
  obtain ⟨hids, hsub⟩ := ids_pageFile hnodup
  have hall : List.Forall₂ (RulePasses none) ((rulesRows f).filterMap ofRow) (pageFile f) := by
    rw [rulesRows, List.filterMap_append]
    exact List.rel_append (hdefaults _) (hown f hsound)
  refine checkRules_eq_ok.2 ⟨_, rfl, ?_, hall, hids⟩
  have hle := (hids.subperm hsub).length_le
  rw [List.length_map, List.length_map] at hle
  rw [hall.length_eq]
  exact hle.trans hlen

/-! ### The engine's rules -/

/-- The engine's rule with the targets as the page writes them back. -/
def pageBuilt (r : BuiltRule) : BuiltRule :=
  { r with scope := r.scope.map pageWho, overrides := r.overrides.map pageOverride }

/-- What the page writes back builds the rule with its targets as strings. -/
private theorem built_pageChange {d : DefaultId} {c : FileChange} (h : ChangeSound d c) :
    (pageChange d c).built d = pageBuilt (c.built d) := by
  obtain ⟨hthreshold, hfor, hclear, hseverity⟩ := pageChange_levels h
  have hminutes : minutes d * MIN = d.rule.forTime := by cases d <;> rfl
  have htime : ∀ m : Option ℤ, (m.map (· * MIN)).getD d.rule.forTime = m.getD (minutes d) * MIN := by
    intro m
    cases m with
    | none => exact hminutes.symm
    | some m => rfl
  unfold FileChange.built pageBuilt
  simp only [hthreshold, hclear, hseverity, htime, hfor]
  rfl

private theorem pageDefault_eq_none {d : DefaultId} {c : FileChange} (h : pageDefault d c = none) :
    pageChange d c = ⟨none, none, none, none, false, []⟩ := by
  have hempty : Json.clean (differences d (defaultRow d c)) = [] := by
    unfold pageDefault at h
    split at h
    · exact List.isEmpty_iff.1 ‹_›
    · cases h
  have hall : ∀ e ∈ differences d (defaultRow d c), e.2 = none := by
    intro e he
    have hnone := (List.filterMap_eq_nil_iff.1 hempty) e he
    exact Option.map_eq_none_iff.1 hnone
  simp only [differences, List.forall_mem_cons] at hall
  obtain ⟨hthreshold, hfor, hclear, hseverity, hoff, hoverrides, -⟩ := hall
  have hoff : c.off = false := by
    cases hc : c.off with
    | false => rfl
    | true => simp [defaultRow, hc, ofOff] at hoff
  have hoverrides : c.overrides = [] := by
    rw [show (defaultRow d c).overrides = rowOverrides c.overrides from rfl, ofRowOverrides_eq] at hoverrides
    simpa [ofOverrides] using hoverrides
  simp only [ite_eq_right_iff, reduceCtorEq, imp_false] at hthreshold hfor hclear hseverity
  have hthreshold' : (pageChange d c).threshold = none := if_neg hthreshold
  have hfor' : (pageChange d c).forMin = none := if_neg hfor
  have hclear' : (pageChange d c).clear = none := if_neg hclear
  have hseverity' : (pageChange d c).severity = none := if_neg hseverity
  have hoverrides' : (pageChange d c).overrides = [] := by rw [pageChange, hoverrides, List.map_nil]
  rw [← hthreshold', ← hfor', ← hclear', ← hseverity', ← hoverrides', ← hoff]
  rfl

private theorem changeOf_pageFile (f : List FileRule) (d : DefaultId) :
    changeOf (pageFile f) d = (pageDefault d (changeAt f d)).map fun _ => pageChange d (changeAt f d) := by
  have hown : ∀ rs : List FileOwn, changeOf (rs.map fun r => .own (pageOwn r)) d = none := by
    intro rs
    induction rs with
    | nil => rfl
    | cons r rs ih => exact ih
  have hother : ∀ ds : List DefaultId, d ∉ ds →
      changeOf (ds.filterMap fun d => pageDefault d (changeAt f d)) d = none := by
    intro ds hds
    rw [changeOf, List.findSome?_eq_none_iff]
    intro r hr
    obtain ⟨d', hd', hr⟩ := List.mem_filterMap.1 hr
    unfold pageDefault at hr
    split at hr
    · cases hr
    · cases hr
      refine if_neg ?_
      rintro rfl
      exact hds hd'
  have hdefault : ∀ ds : List DefaultId, ds.Nodup → d ∈ ds →
      changeOf (ds.filterMap fun d => pageDefault d (changeAt f d)) d =
        (pageDefault d (changeAt f d)).map fun _ => pageChange d (changeAt f d) := by
    intro ds hnodup hd
    obtain ⟨pre, post, rfl⟩ := List.append_of_mem hd
    rw [List.nodup_append, List.nodup_cons] at hnodup
    have hpre := hother pre fun hmem => hnodup.2.2 d hmem d List.mem_cons_self rfl
    have hpost := hother post hnodup.2.1.1
    unfold changeOf at hpre hpost ⊢
    rw [List.filterMap_append, List.findSome?_append, hpre, Option.none_or, List.filterMap_cons]
    cases hc : pageDefault d (changeAt f d) with
    | none => exact hpost
    | some r =>
      unfold pageDefault at hc
      split at hc
      · cases hc
      · cases hc
        simp
  have hall := hdefault DefaultId.all (by decide) (by cases d <;> decide)
  have hrest := hown (f.filterMap ownOf)
  unfold changeOf at hall hrest ⊢
  rw [pageFile, List.findSome?_append, hrest, Option.or_none, hall]

private theorem buildRules_pageFile (h : ∀ c ∈ f, RuleSound c) :
    buildRules (pageFile f) = (buildRules f).map pageBuilt := by
  have hdefault : ∀ d, ((changeOf (pageFile f) d).map (FileChange.built d)).getD d.built =
      pageBuilt (((changeOf f d).map (FileChange.built d)).getD d.built) := by
    intro d
    have hat : ((changeOf f d).map (FileChange.built d)).getD d.built = (changeAt f d).built d := by
      unfold changeAt
      cases changeOf f d <;> rfl
    rw [changeOf_pageFile, hat, ← built_pageChange (changeSound_changeAt h d)]
    cases hc : pageDefault d (changeAt f d) with
    | none =>
      rw [pageDefault_eq_none hc]
      rfl
    | some r => rfl
  have hown : (pageFile f).filterMap ownOf = (f.filterMap ownOf).map pageOwn := by
    have hnone : (DefaultId.all.filterMap fun d => pageDefault d (changeAt f d)).filterMap ownOf = [] := by
      rw [List.filterMap_eq_nil_iff]
      intro r hr
      obtain ⟨d, -, hd⟩ := List.mem_filterMap.1 hr
      unfold pageDefault at hd
      split at hd
      · cases hd
      · cases hd
        rfl
    rw [pageFile, List.filterMap_append, hnone, List.nil_append, List.filterMap_map, ← List.filterMap_eq_map]
    rfl
  unfold buildRules
  rw [List.map_append, List.map_map, List.map_map, hown, List.map_map]
  congr 1
  exact List.map_congr_left fun d _ => hdefault d

/-! ### Files that name servers by strings -/

/-- A target that the page does not change. -/
def isPlain : Who → Bool
  | .node (.str _) => true
  | .node _ => false
  | .tag _ => true

/-- Every server that the rule names in its scope and overrides is named by a string. -/
def namesStrings : FileRule → Bool
  | .change _ c => c.overrides.all fun o => isPlain o.who
  | .own r => r.scope.all isPlain && r.overrides.all fun o => isPlain o.who

private theorem pageWho_eq_self {w : Who} : pageWho w = w ↔ isPlain w = true := by
  cases w with
  | node v =>
    cases v with
    | str s => exact iff_of_true rfl rfl
    | null => exact iff_of_false (fun h => by cases Who.node.inj h) Bool.false_ne_true
    | bool b => exact iff_of_false (fun h => by cases Who.node.inj h) Bool.false_ne_true
    | num x => exact iff_of_false (fun h => by cases Who.node.inj h) Bool.false_ne_true
    | arr xs => exact iff_of_false (fun h => by cases Who.node.inj h) Bool.false_ne_true
    | obj m => exact iff_of_false (fun h => by cases Who.node.inj h) Bool.false_ne_true
  | tag t => exact iff_of_true rfl rfl

private theorem pageOverrides_eq_self {os : List FileOverride} :
    os.map pageOverride = os ↔ (os.all fun o => isPlain o.who) = true := by
  have hone : ∀ o : FileOverride, pageOverride o = o ↔ isPlain o.who = true := by
    rintro ⟨w, th⟩
    simp [pageOverride, pageWho_eq_self]
  have hid : os.map pageOverride = os ↔ os.map pageOverride = os.map id := by rw [List.map_id]
  rw [hid, List.map_inj_left, List.all_eq_true]
  exact forall₂_congr fun o _ => hone o

private theorem pageBuilt_eq_self {r : BuiltRule} :
    pageBuilt r = r ↔ r.scope.all isPlain = true ∧ (r.overrides.all fun o => isPlain o.who) = true := by
  have hscope : r.scope.map pageWho = r.scope ↔ r.scope.all isPlain = true := by
    cases r.scope with
    | none => simp
    | some w => simp [pageWho_eq_self]
  rw [← hscope, ← pageOverrides_eq_self]
  cases r
  simp [pageBuilt]

private theorem changeOf_eq_some (hnodup : (f.map FileRule.id).Nodup) {d : DefaultId} {c : FileChange}
    (hc : FileRule.change d c ∈ f) : changeOf f d = some c := by
  induction f with
  | nil => cases hc
  | cons r f ih =>
    rw [List.map_cons, List.nodup_cons] at hnodup
    rcases List.mem_cons.1 hc with rfl | hmem
    · simp [changeOf]
    · have hrest := ih hnodup.2 hmem
      unfold changeOf at hrest ⊢
      rw [List.findSome?_cons]
      cases r with
      | own r => exact hrest
      | change d' c' =>
        have hne : d' ≠ d := by
          rintro rfl
          exact hnodup.1 (List.mem_map.2 ⟨_, hmem, rfl⟩)
        simp only [hne, if_false]
        exact hrest

/-- The engine's rules stay when the page writes the targets back, when the file names every server by a string. -/
private theorem map_pageBuilt_eq_self (hnodup : (f.map FileRule.id).Nodup) :
    (buildRules f).map pageBuilt = buildRules f ↔ ∀ r ∈ f, namesStrings r = true := by
  have hid : (buildRules f).map pageBuilt = buildRules f ↔ (buildRules f).map pageBuilt = (buildRules f).map id := by
    rw [List.map_id]
  rw [hid, List.map_inj_left]
  constructor
  · intro h r hr
    cases r with
    | change d c =>
      have hmem : c.built d ∈ buildRules f := by
        refine List.mem_append_left _ (List.mem_map.2 ⟨d, by cases d <;> decide, ?_⟩)
        rw [changeOf_eq_some hnodup hr]
        rfl
      exact (pageBuilt_eq_self.1 (h _ hmem)).2
    | own r =>
      have hmem : r.built ∈ buildRules f :=
        List.mem_append_right _ (List.mem_map.2 ⟨r, List.mem_filterMap.2 ⟨_, hr, rfl⟩, rfl⟩)
      exact Bool.and_eq_true_iff.2 (pageBuilt_eq_self.1 (h _ hmem))
  · intro h r hr
    refine pageBuilt_eq_self.2 ?_
    rcases List.mem_append.1 hr with hr | hr
    · obtain ⟨d, -, rfl⟩ := List.mem_map.1 hr
      cases hc : changeOf f d with
      | none => exact ⟨rfl, rfl⟩
      | some c =>
        obtain ⟨r', hr', hfound⟩ := List.exists_of_findSome?_eq_some hc
        cases r' with
        | own r => cases hfound
        | change d' c' =>
          dsimp only at hfound
          split at hfound
          · cases hfound
            exact ⟨rfl, h _ hr'⟩
          · cases hfound
    · obtain ⟨r', hr', rfl⟩ := List.mem_map.1 hr
      obtain ⟨c, hc, hown⟩ := List.mem_filterMap.1 hr'
      cases c with
      | change d c => cases hown
      | own c =>
        cases hown
        exact Bool.and_eq_true_iff.1 (h _ hc)

end

/-- A saved file passes the check again unchanged, and the file that the page makes of its rows passes it and builds the
same engine rules, if and only if the file names every server of a scope or an override by a string. -/
theorem saved_again {nodeIds : Option (List JsString)} {input : Json} {f : List FileRule}
    (h : checkRules nodeIds input = .ok f) :
    (checkRules none (fileJson f) = .ok f ∧
      ∃ f', checkRules none (rulesFile (rulesRows f)) = .ok f' ∧ buildRules f' = buildRules f) ↔
      ∀ r ∈ f, namesStrings r = true := by
  have hpage := checkRules_rulesFile h
  have hbuilt := buildRules_pageFile fun c hc => ruleSound_of_mem h hc
  rw [← map_pageBuilt_eq_self (length_of_check h).2, ← hbuilt]
  constructor
  · rintro ⟨-, f', hf', hsame⟩
    rw [hpage] at hf'
    obtain rfl := Except.ok.inj hf'
    exact hsame
  · exact fun hsame => ⟨checkRules_fileJson h, _, hpage, hsame⟩

private theorem isCustomId_busy : isCustomId (js "c_busy") = true := by decide

/-- A rule of one's own that is scoped to a server. -/
private def busyJson (server : Json) : Json := .obj [(js "rules", .arr [.obj [
  (js "id", .str (js "c_busy")), (js "name", .str (js "busy")), (js "metric", .str (js "cpu")),
  (js "op", .str (js ">=")), (js "threshold", .num (some 90)), (js "severity", .str (js "info")),
  (js "scope", .obj [(js "node", server)])]])]

private def busyFile (server : Json) : List FileRule :=
  [.own ⟨⟨js "c_busy", isCustomId_busy⟩, js "busy", .str (js "cpu"), .ge, 90, some (.node server), none, 0, none, .info,
    false, []⟩]

private theorem checkRules_busyJson : checkRules none (busyJson (.str (js "aaaaaaaaaaaa"))) =
    .ok (busyFile (.str (js "aaaaaaaaaaaa"))) := rfl

/-- A server named by a string survives. -/
theorem busy_saved_again :
    checkRules none (fileJson (busyFile (.str (js "aaaaaaaaaaaa")))) = .ok (busyFile (.str (js "aaaaaaaaaaaa"))) ∧
      ∃ f', checkRules none (rulesFile (rulesRows (busyFile (.str (js "aaaaaaaaaaaa"))))) = .ok f' ∧
        buildRules f' = buildRules (busyFile (.str (js "aaaaaaaaaaaa"))) :=
  (saved_again checkRules_busyJson).2 fun r hr => by
    rw [List.mem_singleton.1 hr]
    rfl

/-- A server named by a list of its id is accepted, and the page makes it a string: the rule, which held for no server,
holds for this one. -/
theorem server_in_a_list :
    checkRules none (busyJson (.arr [.str (js "aaaaaaaaaaaa")])) = .ok (busyFile (.arr [.str (js "aaaaaaaaaaaa")])) ∧
      ¬ ∃ f', checkRules none (rulesFile (rulesRows (busyFile (.arr [.str (js "aaaaaaaaaaaa")])))) = .ok f' ∧
        buildRules f' = buildRules (busyFile (.arr [.str (js "aaaaaaaaaaaa")])) := by
  refine ⟨rfl, ?_⟩
  rintro ⟨f', hf', hsame⟩
  have hpage : checkRules none (rulesFile (rulesRows (busyFile (.arr [.str (js "aaaaaaaaaaaa")])))) =
      .ok (busyFile (.str (js "aaaaaaaaaaaa"))) := rfl
  rw [hpage] at hf'
  obtain rfl := Except.ok.inj hf'
  have hscope : some (Who.node (.str (js "aaaaaaaaaaaa"))) = some (Who.node (.arr [.str (js "aaaaaaaaaaaa")])) :=
    congrArg (fun l : List BuiltRule => l.getLast?.bind BuiltRule.scope) hsame
  cases Who.node.inj (Option.some.inj hscope)

end RulesFile

end Servitals
