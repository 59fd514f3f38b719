import Servitals.NodeReadings

/-!
# Four readers of the memory

The history's series, the trend, the alert engine and the fleet's card each compute the share of the memory in use.  The
alert engine alone looks whether the used amount is a number: the others take one that is null for 0.
-/

namespace Servitals

namespace Snapshot

/-! ### The series that are recorded -/

private theorem get?_putValues_of_ne {ps : List (JsString × Option ℚ)} {k : JsString} (h : ∀ p ∈ ps, p.1 ≠ k)
    (m : OMap JsString ℚ) : (ps.foldl putValue m).get? k = m.get? k := by
  induction ps generalizing m with
  | nil => rfl
  | cons p ps ih =>
    rw [List.forall_mem_cons] at h
    rw [List.foldl_cons, ih h.2, putValue]
    cases p.2 with
    | none => rfl
    | some x => exact OMap.get?_set_of_ne m h.1.symm x

/-- A value whose name no other has. -/
private theorem get?_putValues {pre post : List (JsString × Option ℚ)} {k : JsString} {x : Option ℚ}
    (hpre : ∀ p ∈ pre, p.1 ≠ k) (hpost : ∀ p ∈ post, p.1 ≠ k) :
    ((pre ++ (k, x) :: post).foldl putValue .empty).get? k = x := by
  rw [List.foldl_append, List.foldl_cons, get?_putValues_of_ne hpost, putValue]
  cases x with
  | none => exact get?_putValues_of_ne hpre .empty
  | some x => exact OMap.get?_set_self ..

/-- Strings that begin with different code units. -/
private theorem append_ne {p x q : JsString} (hp : p ≠ []) (h : p.head? ≠ q.head?) : p ++ x ≠ q := by
  rintro rfl
  cases p with
  | nil => exact hp rfl
  | cons u p => exact h rfl

/-- The values after those of the memory. -/
private def laterValues (v : Json) : List (JsString × Option ℚ) :=
  [(js "temp", finite? (at_ (v.get (js "temp")) "package"))] ++ (seriesValues v).drop 6

private theorem seriesValues_eq (v : Json) : seriesValues v =
    [(js "cpu", finite? (at_ (v.get (js "cpu")) "usage")), (js "iowait", finite? (at_ (v.get (js "cpu")) "iowait")),
      (js "load1", finite? ((items (at_ (v.get (js "cpu")) "load")).bind List.head?))] ++
    (js "mem", share (v.get (js "mem")) "used" "total") ::
    (js "swap", share (v.get (js "mem")) "swapUsed" "swapTotal") :: laterValues v := rfl

private theorem later_names (v : Json) {p : JsString × Option ℚ} (hp : p ∈ laterValues v) :
    p.1 ≠ js "mem" ∧ p.1 ≠ js "swap" := by
  have hlisted : ∀ {pre x : JsString}, pre ≠ [] → pre.head? ≠ (js "mem").head? → pre.head? ≠ (js "swap").head? →
      pre ++ x ≠ js "mem" ∧ pre ++ x ≠ js "swap" := fun hne hm hs => ⟨append_ne hne hm, append_ne hne hs⟩
  unfold laterValues seriesValues at hp
  simp only [List.cons_append, List.nil_append, List.drop_succ_cons, List.drop_zero, List.append_assoc, List.mem_cons,
    List.mem_append, List.mem_map, List.mem_flatMap, List.not_mem_nil, or_false] at hp
  have hfixed : ∀ k ∈ [js "temp", js "net.rx", js "net.tx"], k ≠ js "mem" ∧ k ≠ js "swap" := by decide
  rcases hp with rfl | ⟨r, -, rfl⟩ | rfl | rfl | ⟨d, -, rfl⟩ | ⟨d, -, rfl | rfl⟩ | ⟨c, -, rfl | rfl⟩
  · exact hfixed _ (by simp)
  · exact hlisted (by decide) (by decide) (by decide)
  · exact hfixed _ (by simp)
  · exact hfixed _ (by simp)
  all_goals exact hlisted (by decide) (by decide) (by decide)

/-- What the history records of the memory. -/
private theorem get?_seriesOf (v : NodeView) :
    (seriesOf v).get? (js "mem") = share (v.snap.get (js "mem")) "used" "total" ∧
      (seriesOf v).get? (js "swap") = share (v.snap.get (js "mem")) "swapUsed" "swapTotal" := by
  have hbefore : ∀ k : JsString, k ≠ js "cpu" → k ≠ js "iowait" → k ≠ js "load1" → ∀ x y z : Option ℚ,
      ∀ p ∈ [(js "cpu", x), (js "iowait", y), (js "load1", z)], p.1 ≠ k := by
    intro k hcpu hiowait hload x y z p hp
    simp only [List.mem_cons, List.not_mem_nil, or_false] at hp
    rcases hp with rfl | rfl | rfl
    · exact hcpu.symm
    · exact hiowait.symm
    · exact hload.symm
  have hne : js "mem" ≠ js "swap" := by decide
  unfold seriesOf
  rw [seriesValues_eq]
  constructor
  · refine get?_putValues (hbefore _ (by decide) (by decide) (by decide) _ _ _) fun p hp => ?_
    rcases List.mem_cons.1 hp with rfl | hp
    · exact hne.symm
    · exact (later_names _ hp).1
  · rw [List.append_cons]
    refine get?_putValues (fun p hp => ?_) fun p hp => (later_names _ hp).2
    rcases List.mem_append.1 hp with hp | hp
    · exact hbefore _ (by decide) (by decide) (by decide) _ _ _ p hp
    · rw [List.mem_singleton.1 hp]
      exact hne

/-! ### The view's memory -/

private theorem getLast?_rtake {α : Type*} (l : List α) (x : α) {n : ℕ} (hn : 0 < n) :
    ((l ++ [x]).rtake n).getLast? = some x := by
  obtain ⟨n, rfl⟩ := Nat.exists_eq_succ_of_ne_zero hn.ne'
  rw [List.rtake_concat_succ, List.getLast?_append, List.getLast?_singleton]
  rfl

/-- The hub derives nothing of the memory, and the trend ends with what the snapshot says. -/
private theorem view_mem (cur : Json) (prev : Option Json) (trend : List TrendPoint) :
    (view cur prev trend).snap.get (js "mem") = cur.get (js "mem") ∧
      (view cur prev trend).trend.getLast? = some (trendPoint cur) := by
  cases cur with
  | obj m =>
    refine ⟨?_, getLast?_rtake _ _ (by decide)⟩
    refine Json.member_spread_of_notMem fun e he => ?_
    have hname := (Json.clean_keys _).subset (List.mem_map_of_mem he)
    have hothers : ∀ k ∈ [js "net", js "io", js "docker"], k ≠ js "mem" := by decide
    exact hothers e.1 hname
  | null => exact ⟨rfl, getLast?_rtake _ _ (by decide)⟩
  | bool b => exact ⟨rfl, getLast?_rtake _ _ (by decide)⟩
  | num x => exact ⟨rfl, getLast?_rtake _ _ (by decide)⟩
  | str s => exact ⟨rfl, getLast?_rtake _ _ (by decide)⟩
  | arr xs => exact ⟨rfl, getLast?_rtake _ _ (by decide)⟩

/-- An amount of the memory. -/
def amount (cur : Json) (k : String) : Option Json := at_ (cur.get (js "mem")) k

/-- An amount that the validator lets through: missing, null or a number that is not negative. -/
def IsAmount (v : Option Json) : Prop := v = none ∨ v = some .null ∨ ∃ x, v = some (.num (some x)) ∧ 0 ≤ x

private theorem isAmount_of_validate {s cur : Json} {d : List String} (h : validate s = .ok (cur, d)) {k : String}
    (hk : k ∈ ["total", "used", "available", "free", "cache", "swapTotal", "swapUsed"]) : IsAmount (amount cur k) := by
  obtain ⟨m, rfl, -, hfits⟩ := (stored_again h).1
  have hmem : (mem : Check).Fits (Json.member m (js "mem")) := by
    refine hfits ("mem", mem) (List.mem_map.2 ⟨opt "mem" mem (Or.inl ⟨Or.inl rfl, rfl⟩), ?_, rfl⟩)
    simp [parts]
  unfold amount
  rw [Json.get_obj]
  rcases hmem with ⟨hnone | hnull, -⟩ | ⟨x, hx, n, rfl, -, hfields⟩
  · rw [hnone]
    exact Or.inl rfl
  · rw [hnull]
    exact Or.inl rfl
  · rw [hx]
    rcases hfields (k, counter {}) (List.mem_map_of_mem hk) with ⟨hnone, -⟩ | ⟨hnull, -⟩ | ⟨x, hnum, hlow, -⟩
    · exact Or.inl hnone
    · exact Or.inr (Or.inl hnull)
    · exact Or.inr (Or.inr ⟨x, hnum, hlow⟩)

/-! ### A share of two amounts -/

def isNull : Option Json → Bool
  | some .null => true
  | _ => false

/-- The part is null, of a total above zero. -/
def isUnread (part total : Option Json) : Bool := (finite? total).any (fun t => 0 < t) && isNull part

/-- The part was measured, of a total of 0. -/
def isEmpty (part total : Option Json) : Bool := finite? total == some 0 && (finite? part).isSome

/-- The share of a part that was measured, of a total above zero. -/
def measured (part total : Option ℚ) : Option ℚ :=
  total.bind fun t => if 0 < t then part.map fun p => percent p t else none

section
variable {part total : Option Json} (hpart : IsAmount part) (htotal : IsAmount total)

include htotal in
private theorem isPositive_amount : isPositive total = (finite? total).any fun t => 0 < t := by
  rcases htotal with rfl | rfl | ⟨t, rfl, -⟩
  · rfl
  · exact decide_eq_false (lt_irrefl (0 : ℚ))
  · rfl

include hpart htotal in
/-- What is computed of two amounts: the share that was measured, or 0 of a part that is null. -/
private theorem ratio_amounts (scale : ℚ) :
    (if (finite? total).any (fun t => 0 < t) then ratio scale part total else none) =
    if isUnread part total then some 0
    else (finite? total).bind fun t => if 0 < t then (finite? part).map fun p => mathRound (p * scale / t) else none := by
  have hzero : ∀ t : ℚ, mathRound (0 * scale / t) = 0 := by
    intro t
    rw [mathRound, zero_mul, zero_div, zero_add]
    norm_num
  rcases htotal with rfl | rfl | ⟨t, rfl, -⟩
  · rfl
  · rfl
  · by_cases ht : 0 < t
    · have hpos : (finite? (some (.num (some t)))).any (fun t => 0 < t) = true := decide_eq_true ht
      unfold isUnread
      rw [hpos, if_pos rfl, Bool.true_and]
      rcases hpart with rfl | rfl | ⟨p, rfl, -⟩
      · simp [isNull, ratio, toNumber, finite?]
      · simpa [isNull, ratio, toNumber] using hzero t
      · simp [isNull, ratio, toNumber, finite?, ht]
    · have hpos : (finite? (some (.num (some t)))).any (fun t => 0 < t) = false := decide_eq_false ht
      unfold isUnread
      rw [hpos, if_neg Bool.false_ne_true, Bool.false_and, if_neg Bool.false_ne_true]
      simp [finite?, ht]

include hpart htotal in
private theorem percentOf_amounts : (if (finite? total).any (fun t => 0 < t) then percentOf part total else none) =
    if isUnread part total then some 0 else measured (finite? part) (finite? total) := by
  have hratio := congrArg (Option.map fun (n : ℤ) => (n : ℚ) / 10) (ratio_amounts hpart htotal 1000)
  have hcomputed : (if (finite? total).any (fun t => 0 < t) then percentOf part total else none) =
      (if (finite? total).any (fun t => 0 < t) then ratio 1000 part total else none).map
        fun (n : ℤ) => (n : ℚ) / 10 := by
    split <;> rfl
  rw [hcomputed, hratio]
  split
  · simp
  · unfold measured percent
    cases finite? total with
    | none => rfl
    | some t =>
      rw [Option.bind_some, Option.bind_some]
      split
      · rw [Option.map_map]
        rfl
      · rfl

end

/-! ### The readers -/

/-- What the alert engine's `mem` says of a view. -/
private theorem valuesOf_mem (v : NodeView) (running : List JsString) :
    valuesOf .mem (alertView v) running =
      (measured (finite? (amount v.snap "used")) (finite? (amount v.snap "total"))).map fun x => [⟨[], x⟩] := by
  have hread : ∀ w : Option Json, ((group w fun m => (⟨finite? (m.get (js "total")), finite? (m.get (js "used")),
      finite? (m.get (js "swapTotal")), finite? (m.get (js "swapUsed"))⟩ : Mem)).bind fun m => m.total.bind fun total =>
        if 0 < total then m.used.map fun used => percent used total else none) =
      measured (finite? (at_ w "used")) (finite? (at_ w "total")) := by
    intro w
    cases w with
    | none => rfl
    | some w => cases w <;> rfl
  exact congrArg (Option.map fun x => [(⟨[], x⟩ : SubValue)]) (hread (v.snap.get (js "mem")))

private theorem finite?_of_unread {part total : Option Json} (h : isUnread part total = true) :
    finite? part = none := by
  have hnull := (Bool.and_eq_true_iff.1 h).2
  unfold isNull at hnull
  split at hnull
  · rfl
  · cases hnull

private theorem measured_none {part : Option ℚ} (h : part = none) (total : Option ℚ) : measured part total = none := by
  rw [h, measured]
  cases total <;> simp

/-- A share was measured when both amounts were, but for a total of 0. -/
private theorem isSome_measured {part total : Option Json} (htotal : IsAmount total) :
    (measured (finite? part) (finite? total)).isSome = ((finite? total).isSome && (finite? part).isSome) ↔
      isEmpty part total = false := by
  rcases htotal with rfl | rfl | ⟨t, rfl, ht⟩
  · exact iff_of_true rfl rfl
  · exact iff_of_true rfl rfl
  · rcases ht.lt_or_eq with hpos | rfl
    · simp [measured, finite?, isEmpty, hpos, hpos.ne']
    · unfold isEmpty
      cases finite? part <;> simp [measured, finite?]

/-- The readers of the memory say the same of a view of a snapshot, and no amount that was not measured is 0 %. -/
structure Agree (v : NodeView) (cur : Json) (running : List JsString) : Prop where
  history : ∀ x, (seriesOf v).get? (js "mem") = some x ↔ valuesOf .mem (alertView v) running = some [⟨[], x⟩]
  trend : ∀ x, v.trend.getLast?.bind TrendPoint.mem = some x ↔ valuesOf .mem (alertView v) running = some [⟨[], x⟩]
  card : (summary v).mem.isSome = (valuesOf .mem (alertView v) running).isSome
  swap : ((seriesOf v).get? (js "swap")).isSome = ((finite? (amount cur "swapTotal")).isSome &&
    (finite? (amount cur "swapUsed")).isSome)
  unread : finite? (amount cur "used") = none → (seriesOf v).get? (js "mem") ≠ some 0 ∧
    v.trend.getLast?.bind TrendPoint.mem ≠ some 0 ∧ (summary v).mem ≠ some 0
  unreadSwap : finite? (amount cur "swapUsed") = none → (seriesOf v).get? (js "swap") ≠ some 0

/-- What each reader says of the amounts of a validated snapshot. -/
private theorem readings_of_validate {s cur : Json} {d : List String} (h : validate s = .ok (cur, d))
    (prev : Option Json)
    (trend : List TrendPoint) (running : List JsString) :
    (seriesOf (view cur prev trend)).get? (js "mem") =
        (if isUnread (amount cur "used") (amount cur "total") then some 0
          else measured (finite? (amount cur "used")) (finite? (amount cur "total"))) ∧
      (seriesOf (view cur prev trend)).get? (js "swap") =
        (if isUnread (amount cur "swapUsed") (amount cur "swapTotal") then some 0
          else measured (finite? (amount cur "swapUsed")) (finite? (amount cur "swapTotal"))) ∧
      (view cur prev trend).trend.getLast?.bind TrendPoint.mem =
        (if isUnread (amount cur "used") (amount cur "total") then some 0
          else measured (finite? (amount cur "used")) (finite? (amount cur "total"))) ∧
      (summary (view cur prev trend)).mem =
        (if isUnread (amount cur "used") (amount cur "total") then some 0
          else (finite? (amount cur "total")).bind fun t =>
            if 0 < t then (finite? (amount cur "used")).map fun p => mathRound (p * 100 / t) else none) ∧
      valuesOf .mem (alertView (view cur prev trend)) running =
        (measured (finite? (amount cur "used")) (finite? (amount cur "total"))).map fun x => [⟨[], x⟩] := by
  obtain ⟨hview, hlast⟩ := view_mem cur prev trend
  have hused := isAmount_of_validate h (show "used" ∈ _ by simp)
  have htotal := isAmount_of_validate h (show "total" ∈ _ by simp)
  have hswapUsed := isAmount_of_validate h (show "swapUsed" ∈ _ by simp)
  have hswapTotal := isAmount_of_validate h (show "swapTotal" ∈ _ by simp)
  have hsame : ∀ k, amount (view cur prev trend).snap k = amount cur k := fun k => congrArg (at_ · k) hview
  obtain ⟨hmem, hswap⟩ := get?_seriesOf (view cur prev trend)
  rw [hview] at hmem hswap
  refine ⟨hmem.trans (percentOf_amounts hused htotal), hswap.trans (percentOf_amounts hswapUsed hswapTotal), ?_, ?_, ?_⟩
  · rw [hlast, Option.bind_some, ← percentOf_amounts hused htotal, ← isPositive_amount htotal]
    rfl
  · rw [← ratio_amounts hused htotal, ← isPositive_amount htotal, ← hsame "used", ← hsame "total"]
    rfl
  · rw [← hsame "used", ← hsame "total"]
    exact valuesOf_mem (view cur prev trend) running

/-- **The readers of the memory.**  They agree on a validated snapshot, and none of them takes an amount that the agent
could not read for 0 %, if and only if no used amount is null under a total above zero; and then swap is recorded when both
of its amounts were measured, but for a total of 0. -/
theorem readers_agree_iff {s cur : Json} {d : List String} (h : validate s = .ok (cur, d)) (prev : Option Json)
    (trend : List TrendPoint) (running : List JsString) :
    Agree (view cur prev trend) cur running ↔
      isUnread (amount cur "used") (amount cur "total") = false ∧
        isUnread (amount cur "swapUsed") (amount cur "swapTotal") = false ∧
        isEmpty (amount cur "swapUsed") (amount cur "swapTotal") = false := by
  have hswapTotal := isAmount_of_validate h (show "swapTotal" ∈ _ by simp)
  obtain ⟨hmem, hswap, htrend, hcard, hengine⟩ := readings_of_validate h prev trend running
  constructor
  · intro hagree
    have hread : isUnread (amount cur "used") (amount cur "total") = false := by
      rw [← Bool.not_eq_true]
      intro hunread
      rw [if_pos hunread] at hmem
      exact (hagree.unread (finite?_of_unread hunread)).1 hmem
    have hreadSwap : isUnread (amount cur "swapUsed") (amount cur "swapTotal") = false := by
      rw [← Bool.not_eq_true]
      intro hunread
      rw [if_pos hunread] at hswap
      exact hagree.unreadSwap (finite?_of_unread hunread) hswap
    refine ⟨hread, hreadSwap, ?_⟩
    have hrecorded := hagree.swap
    rw [hswap, hreadSwap, if_neg Bool.false_ne_true] at hrecorded
    exact (isSome_measured hswapTotal).1 hrecorded
  · rintro ⟨hread, hreadSwap, hempty⟩
    rw [hread, if_neg Bool.false_ne_true] at hmem htrend hcard
    rw [hreadSwap, if_neg Bool.false_ne_true] at hswap
    have hone : ∀ x, measured (finite? (amount cur "used")) (finite? (amount cur "total")) = some x ↔
        valuesOf .mem (alertView (view cur prev trend)) running = some [⟨[], x⟩] := by
      intro x
      rw [hengine]
      simp
    exact {
      history := fun x => by rw [hmem, hone]
      trend := fun x => by rw [htrend, hone]
      card := by
        rw [hcard, hengine, Option.isSome_map, measured]
        cases finite? (amount cur "total") with
        | none => rfl
        | some t =>
          rw [Option.bind_some, Option.bind_some]
          split
          · rw [Option.isSome_map, Option.isSome_map]
          · rfl
      swap := by
        rw [hswap]
        exact (isSome_measured hswapTotal).2 hempty
      unread := fun hnone => by
        have hno : measured (finite? (amount cur "used")) (finite? (amount cur "total")) = none := measured_none hnone _
        rw [hmem, htrend, hcard, hno, hnone]
        cases finite? (amount cur "total") <;> simp
      unreadSwap := fun hnone => by
        rw [hswap, hnone, measured_none rfl]
        simp }

/-- A snapshot with amounts of the memory. -/
private def ofMemory (m : List (JsString × Json)) : Json := .obj [
  (js "schema", .num (some 1)), (js "ts", .num (some 1790000000000)), (js "interval", .num (some 60)),
  (js "host", .obj [(js "name", .str (js "nas"))]), (js "mem", .obj m)]

/-- An agent that could read all amounts: 4.0 of 15.6 GiB in use, and 0.5 of 2 GiB of swap. -/
private def readMemory : List (JsString × Json) := [
  (js "total", .num (some 16750372454)), (js "used", .num (some 4294967296)),
  (js "swapTotal", .num (some 2147483648)), (js "swapUsed", .num (some 536870912))]

/-- An agent that could not read how much is in use. -/
private def unreadMemory : List (JsString × Json) := [(js "total", .num (some 16750372454)), (js "used", .null)]

theorem memory_read_alike : Agree (view (ofMemory readMemory) none []) (ofMemory readMemory) [] :=
  (readers_agree_iff (show validate (ofMemory readMemory) = .ok (ofMemory readMemory, []) from rfl) none [] []).2
    (by decide +kernel)

/-- The history records, the trend has and the card shows 0 % of a memory of which the alert engine knows nothing. -/
theorem unread_memory_is_zero :
    validate (ofMemory unreadMemory) = .ok (ofMemory unreadMemory, []) ∧
      (seriesOf (view (ofMemory unreadMemory) none [])).get? (js "mem") = some 0 ∧
      (view (ofMemory unreadMemory) none []).trend.getLast?.bind TrendPoint.mem = some 0 ∧
      (summary (view (ofMemory unreadMemory) none [])).mem = some 0 ∧
      valuesOf .mem (alertView (view (ofMemory unreadMemory) none [])) [] = none ∧
      ¬ Agree (view (ofMemory unreadMemory) none []) (ofMemory unreadMemory) [] := by
  have hrecorded : (seriesOf (view (ofMemory unreadMemory) none [])).get? (js "mem") = some 0 := by decide +kernel
  refine ⟨rfl, hrecorded, ?_, ?_, ?_, fun hagree => (hagree.unread rfl).1 hrecorded⟩
  all_goals decide +kernel

end Snapshot

end Servitals
