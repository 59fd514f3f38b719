import Servitals.RulesFile

/-!
# The two levels of a rule

`checkRules` keeps the clear level of a rule on the near side of its threshold, also of a default rule of which only one
of the two is changed, and an override moves both by the same amount.  So no value fires an alert and ends it
(`fires_or_ends`).
-/

namespace Servitals

namespace BuiltRule

/-- The clear level is not on the far side of the threshold. -/
def Near (r : BuiltRule) : Prop := r.clear.any (RulesFile.isFar r.op r.threshold) = false

/-- An override moves both levels by the same amount. -/
theorem Near.forNode {r r' : BuiltRule} (h : r.Near) {node : Node} (hr : r.forNode node = some r') : r'.Near := by
  unfold BuiltRule.forNode at hr
  split at hr
  · cases hr
  · split at hr
    · cases hr
    · split at hr
      · cases hr
        exact h
      · rename_i o _
        obtain ⟨th, -, rfl⟩ := Option.map_eq_some_iff.1 hr
        unfold Near at h ⊢
        cases hclear : r.clear with
        | none => rfl
        | some c =>
          rw [hclear] at h
          simp only [Option.map_some, Option.any_some] at h ⊢
          cases hop : r.op with
          | ge =>
            simp only [RulesFile.isFar, hop, decide_eq_false_iff_not, not_lt] at h ⊢
            linarith
          | le =>
            simp only [RulesFile.isFar, hop, decide_eq_false_iff_not, not_lt] at h ⊢
            linarith
          | eq => simp [RulesFile.isFar, hop] at h

/-- Where the clear level is on the near side, a value that meets the rule does not end its alert. -/
private theorem Near.not_isOver {r : BuiltRule} (h : r.Near) {value : Option ℚ} (hv : r.holds value = true) :
    r.isOver value = false := by
  unfold Near at h
  unfold isOver
  cases value with
  | none => cases hv
  | some v =>
    have hv : r.op.holds v r.threshold = true := hv
    cases hclear : r.clear with
    | none => simp [hv]
    | some c =>
      rw [hclear, Option.any_some] at h
      simp only [Bool.not_eq_false']
      cases hop : r.op with
      | ge =>
        simp only [RulesFile.isFar, Op.holds, hop, decide_eq_false_iff_not, not_lt, decide_eq_true_eq] at h hv ⊢
        exact h.trans hv
      | le =>
        simp only [RulesFile.isFar, Op.holds, hop, decide_eq_false_iff_not, not_lt, decide_eq_true_eq] at h hv ⊢
        exact hv.trans h
      | eq => simp [RulesFile.isFar, hop] at h

end BuiltRule

namespace RulesFile

variable {nodeIds : Option (List JsString)} {input : Json} {f : List FileRule}

theorem near_of_check {here : JsString} {op : Op} {threshold : ℚ} {clear : Option ℚ} :
    checkNear here op threshold clear = .ok () ↔ clear.any (isFar op threshold) = false := by
  unfold checkNear
  split
  · rename_i hfar
    rw [hfar]
    exact iff_of_false (fun h => by cases h) (by decide)
  · rename_i hnear
    exact iff_of_true rfl (by simpa using hnear)

private theorem near_default (d : DefaultId) : d.built.Near := by
  unfold BuiltRule.Near
  cases d <;> decide +kernel

/-- Every rule of the engine that an accepted file builds. -/
private theorem near_buildRules (h : checkRules nodeIds input = .ok f) {r : BuiltRule} (hr : r ∈ buildRules f) :
    r.Near := by
  have hpasses : ∀ c ∈ f, ∃ v, RulePasses nodeIds v c := fun c hc => passes_of_mem h hc
  rw [buildRules, List.mem_append, List.mem_map, List.mem_map] at hr
  rcases hr with ⟨d, -, rfl⟩ | ⟨r', hr', rfl⟩
  · cases hchange : changeOf f d with
    | none => exact near_default d
    | some c =>
      obtain ⟨c', hc', hfound⟩ := List.exists_of_findSome?_eq_some hchange
      cases c' with
      | own r => cases hfound
      | change d' c' =>
        dsimp only at hfound
        split at hfound
        · rename_i hd
          cases hfound
          subst hd
          obtain ⟨v, hv⟩ := hpasses _ hc'
          exact near_of_check.1 hv.2.near
        · cases hfound
  · obtain ⟨c, hc, hown⟩ := List.mem_filterMap.1 hr'
    cases c with
    | change d c => cases hown
    | own c =>
      cases hown
      obtain ⟨v, hv⟩ := hpasses _ hc
      exact near_of_check.1 hv.2.near

/-- In a rule that an accepted file builds, as it holds for any node, no value both meets the firing condition and the
resolve condition. -/
theorem fires_or_ends {nodeIds : Option (List JsString)} {input : Json} {f : List FileRule}
    (h : checkRules nodeIds input = .ok f) (node : Node) {rule r : BuiltRule} (hrule : rule ∈ buildRules f)
    (hr : rule.forNode node = some r) (value : Option ℚ) : ¬ (r.holds value = true ∧ r.isOver value = true) := by
  rintro ⟨hholds, hover⟩
  have hnear : r.Near := (near_buildRules h hrule).forNode hr
  rw [hnear.not_isOver hholds] at hover
  cases hover

private def dbChange : FileChange := ⟨some 95, none, none, none, false, [⟨.tag (js "db"), some 80⟩]⟩

/-- A file that changes the threshold of a default rule alone, and overrides it for a tag. -/
private def dbFile : Json := .obj [(js "rules", .arr [.obj [(js "id", .str (js "disk_full")),
  (js "threshold", .num (some 95)),
  (js "overrides", .arr [.obj [(js "tag", .str (js "db")), (js "threshold", .num (some 80))]])]])]

private theorem checkRules_dbFile : checkRules (some []) dbFile = .ok [.change .diskFull dbChange] := rfl

private theorem dbChange_mem : dbChange.built .diskFull ∈ buildRules [.change .diskFull dbChange] :=
  @List.mem_of_getElem? _ _ 1 _ rfl

private theorem isNodeId_db : isNodeId (js "aaaaaaaaaaaa") = true := by decide

private def dbNode : Node := ⟨⟨js "aaaaaaaaaaaa", isNodeId_db⟩, js "nas", [js "db"]⟩

/-- The clear level 88 of the default rule moves with the threshold of the tag: 73 to 80, and 75 is between them. -/
theorem moved_levels :
    let r := { dbChange.built .diskFull with threshold := 80, clear := some (88 + (80 - 95)) }
    (dbChange.built .diskFull).forNode dbNode = some r ∧ ¬ (r.holds (some 75) = true ∧ r.isOver (some 75) = true) :=
  ⟨rfl, fires_or_ends checkRules_dbFile dbNode dbChange_mem rfl (some 75)⟩

end RulesFile

end Servitals
