import Servitals.Checks

/-!
# The snapshot validator

`build` and `validate` of `hub/lib/snapshot.js`, what they let through, and that a stored snapshot is let through again
as it is.  An optional group that fails is left out alone; no group decides about another.
-/

namespace Servitals

namespace Snapshot

/-! ### The groups -/

def MAX_INT : ℚ := 2 ^ 53

/-- `counter` -/
def counter (o : NumOptions) : Check := .num 0 MAX_INT { o with int := true }

def traffic : Check :=
  .obj [("rx", counter {}), ("tx", counter {}), ("avgRx", .num 0 MAX_INT {}), ("avgTx", .num 0 MAX_INT {})] true
    (by decide +kernel)

def bar : Check :=
  .obj [("label", .str 32 true), ("title", .str 32 true), ("rx", counter {}), ("tx", counter {})] false
    (by decide +kernel)

/-- One resource's pressure stall information. -/
def stall : Check := .obj [("some", .num 0 100 {}), ("full", .num 0 100 {})] true (by decide +kernel)

def proc : Check :=
  .obj [("pid", .num 0 (2 ^ 32) { int := true }), ("name", .str 64 true), ("cpuPct", .num 0 100000 {}),
    ("rss", counter {})] false (by decide +kernel)

def host : Check :=
  .obj [("name", .str 64 false), ("os", .oneOf [js "linux", js "darwin", js "windows", js "freebsd"]),
    ("distro", .str 64 true), ("kernel", .str 64 true), ("uptime", counter {})] false (by decide +kernel)

def mem : Check :=
  .obj (["total", "used", "available", "free", "cache", "swapTotal", "swapUsed"].map fun k => (k, counter {})) true
    (by decide +kernel)

def cpu : Check :=
  .obj [("usage", .num 0 100 {}), ("cores", .num 1 4096 { int := true }), ("iowait", .num 0 100 {}),
    ("steal", .num 0 100 {}), ("per", .list 1024 (.num 0 100 { optional := false }) (by simp [Check.num])),
    ("load", .list 3 (.num 0 1000000 { optional := false }) (by simp [Check.num]))] true (by decide +kernel)

def pressure : Check := .obj [("cpu", stall), ("mem", stall), ("io", stall)] true (by decide +kernel)

/-- A list of objects with a label and a number that must be there. -/
def readings (max labelMax : ℕ) (name : String) (lo hi : ℚ) (hname : [js "label", js name].Nodup) : Check :=
  .list max (.obj [("label", .str labelMax true), (name, .num lo hi { optional := false })] false hname)
    (by simp [Check.obj])

def temp : Check :=
  .obj [("package", .num (-50) 150 { nullable := true }), ("max", .num (-50) 150 { nullable := true }),
    ("sensors", readings 64 128 "value" (-50) 150 (by decide +kernel))] true (by decide +kernel)

def fans : Check := readings 32 128 "rpm" 0 1000000 (by decide +kernel)

def voltages : Check := readings 32 128 "value" (-1000) 1000 (by decide +kernel)

def battery : Check := .obj [("capacity", .num 0 100 {}), ("status", .str 16 true)] true (by decide +kernel)

def disks : Check :=
  .list 32 (.obj [("mount", .str 128 false), ("mounted", .bool), ("source", .str 128 true), ("model", .str 128 true),
    ("fstype", .str 128 true), ("rotational", .bool), ("size", counter {}), ("used", counter {}),
    ("avail", counter {}), ("pct", .num 0 100 {}), ("device", .str 128 true)] false (by decide +kernel))
    (by simp [Check.obj])

def io : Check :=
  .list 32 (.obj [("device", .str 128 false), ("readBytes", counter {}), ("writeBytes", counter {})] false
    (by decide +kernel)) (by simp [Check.obj])

def vnstat : Check :=
  .obj [("today", traffic), ("month", traffic), ("total", traffic), ("days", .list 31 bar (by simp [bar, Check.obj])),
    ("hours", .list 24 bar (by simp [bar, Check.obj]))] true (by decide +kernel)

def net : Check :=
  .obj [("iface", .str 128 true), ("rxBytes", counter {}), ("txBytes", counter {}), ("vnstat", vnstat)] true
    (by decide +kernel)

def docker : Check :=
  .list 200 (.obj [("name", .str 128 false), ("id", .str 128 true), ("state", .str 32 true), ("status", .str 128 true),
    ("health", .orNull (.str 32 true)), ("cpuUsec", counter { nullable := true }),
    ("mem", counter { nullable := true })] false (by decide +kernel)) (by simp [Check.obj])

def processes : Check :=
  .obj [("cpu", .list 5 proc (by simp [proc, Check.obj])), ("mem", .list 5 proc (by simp [proc, Check.obj]))] true
    (by decide +kernel)

def ubuntu : Check :=
  .obj [("updates", .num 0 1000000 { int := true }), ("security", .num 0 1000000 { int := true }),
    ("rebootRequired", .bool), ("rebootPkgs", .list 32 (.str 128 false) (by simp [Check.str])),
    ("failedUnits", .list 32 (.str 128 false) (by simp [Check.str]))] true (by decide +kernel)

/-! ### The snapshot -/

/-- A part of the snapshot; an optional one may be left out. -/
structure Part where
  name : String
  optional : Bool
  check : Check
  absent : optional = true → check.Fits none

/-- A part whose failure refuses the snapshot. -/
def required (name : String) (check : Check) : Part := ⟨name, false, check, fun h => absurd h Bool.false_ne_true⟩

/-- `opt`: a part whose failure leaves it out. -/
def opt (name : String) (check : Check) (h : check.Fits none) : Part := ⟨name, true, check, fun _ => h⟩

def parts : List Part := [
  required "schema" (.num 1 1 { optional := false, int := true }),
  required "ts" (counter { optional := false }),
  required "interval" (.num 5 3600 { optional := false, int := true }),
  opt "agent" (.str 32 true) (Or.inl ⟨rfl, rfl⟩),
  required "host" host,
  opt "mem" mem (Or.inl ⟨Or.inl rfl, rfl⟩),
  opt "cpu" cpu (Or.inl ⟨Or.inl rfl, rfl⟩),
  opt "pressure" pressure (Or.inl ⟨Or.inl rfl, rfl⟩),
  opt "temp" temp (Or.inl ⟨Or.inl rfl, rfl⟩),
  opt "fans" fans (Or.inl rfl),
  opt "voltages" voltages (Or.inl rfl),
  opt "battery" battery (Or.inl ⟨Or.inl rfl, rfl⟩),
  opt "disks" disks (Or.inl rfl),
  opt "io" io (Or.inl rfl),
  opt "net" net (Or.inl ⟨Or.inl rfl, rfl⟩),
  opt "docker" docker (Or.inl rfl),
  opt "processes" processes (Or.inl ⟨Or.inl rfl, rfl⟩),
  opt "ubuntu" ubuntu (Or.inl ⟨Or.inl rfl, rfl⟩)]

/-- What the check of a part says of a snapshot. -/
def Part.result (g : Part) (s : Json) : Except String (Option Json) := g.check.run (s.get (js g.name)) ("$." ++ g.name)

/-- What is kept of a part. -/
def Part.kept (g : Part) (s : Json) : Option Json := match g.result s with
  | .ok w => w
  | .error _ => none

/-- The path of a part that fails. -/
def Part.dropped (g : Part) (s : Json) : List String := match g.result s with
  | .ok _ => []
  | .error e => [e]

/-- One part: its value, or nothing and its path; a required one throws. -/
def Part.run (s : Json) (g : Part) : Except String (JsString × Option Json × List String) :=
  match g.result s with
  | .ok w => .ok (js g.name, w, [])
  | .error e => if g.optional then .ok (js g.name, none, [e]) else .error e

/-- `validate`: the value and the dropped paths, or the path that refuses the snapshot. -/
def validate (s : Json) : Except String (Json × List String) :=
  if !s.isObj then .error "$"
  else (parts.mapM (Part.run s)).map fun rs => (.obj (Json.clean (rs.map fun r => (r.1, r.2.1))), rs.flatMap fun r => r.2.2)

/-! ### What is stored -/

/-- A stored snapshot: an object of the parts, each of which fits; no required one is absent. -/
def Stored (v : Json) : Prop := Check.Record (parts.map fun g => (g.name, g.check)) v

private theorem parts_nodup : (parts.map fun g => js g.name).Nodup := by decide +kernel

private theorem result_of_run {s : Json} {g : Part} {r : JsString × Option Json × List String} (h : g.run s = .ok r) :
    r = (js g.name, g.kept s, g.dropped s) ∧ g.check.Fits (g.kept s) := by
  unfold Part.run at h
  unfold Part.kept Part.dropped
  split at h
  · rename_i w hw
    cases h
    exact ⟨rfl, g.check.sound _ _ _ hw⟩
  · split at h <;> cases h
    rename_i ho
    exact ⟨rfl, g.absent ho⟩

/-- What is kept of all parts. -/
def value (s : Json) : Json := .obj (Json.clean (parts.map fun g => (js g.name, g.kept s)))

private theorem value_keys (s : Json) :
    (parts.map fun g => (js g.name, g.kept s)).map Prod.fst = parts.map fun g => js g.name := by
  rw [List.map_map]
  rfl

private theorem get_value (s : Json) {g : Part} (hg : g ∈ parts) : (value s).get (js g.name) = g.kept s := by
  apply Json.member_clean
  · rw [value_keys]
    exact parts_nodup
  · exact List.mem_map_of_mem hg

private theorem get_value_of_not (s : Json) {k : JsString} (hk : ∀ g ∈ parts, js g.name ≠ k) :
    (value s).get k = none := by
  apply Json.member_eq_none.2
  intro hm
  have hm := (Json.clean_keys _).subset hm
  rw [value_keys] at hm
  obtain ⟨g, hg, he⟩ := List.mem_map.1 hm
  exact hk g hg he

/-- The parts of an accepted snapshot. -/
private theorem validate_eq_ok {s v : Json} {d : List String} (h : validate s = .ok (v, d)) :
    (∀ g ∈ parts, g.run s = .ok (js g.name, g.kept s, g.dropped s)) ∧
      v = value s ∧ d = parts.flatMap fun g => g.dropped s := by
  unfold validate at h
  split at h
  · cases h
  · cases hm : parts.mapM (Part.run s) with
    | error e =>
      rw [hm] at h
      cases h
    | ok rs =>
      rw [hm] at h
      cases h
      have hrun : ∀ g ∈ parts, g.run s = .ok (js g.name, g.kept s, g.dropped s) := by
        intro g hg
        obtain ⟨r, -, hr⟩ := mem_of_mapM_eq_ok hm hg
        rw [hr, (result_of_run hr).1]
      rw [mapM_of_forall hrun] at hm
      cases hm
      refine ⟨hrun, ?_, ?_⟩
      · rw [List.map_map, value]
        rfl
      · rw [List.flatMap_map]

private theorem validate_of_run {s : Json} (hobj : s.isObj = true)
    (h : ∀ g ∈ parts, g.run s = .ok (js g.name, g.kept s, g.dropped s)) :
    validate s = .ok (value s, parts.flatMap fun g => g.dropped s) := by
  unfold validate value
  rw [hobj, mapM_of_forall h]
  simp only [Bool.not_true, Bool.false_eq_true, if_false, Except.map, List.map_map, List.flatMap_map]
  rfl

theorem Stored.validate {v : Json} (h : Stored v) : Snapshot.validate v = .ok (v, []) := by
  obtain ⟨m, rfl, hsub, hfits⟩ := h
  rw [List.map_map] at hsub
  have hresult : ∀ g ∈ parts, g.result (.obj m) = .ok (Json.member m (js g.name)) := by
    intro g hg
    exact g.check.stable _ _ (hfits (g.name, g.check) (List.mem_map_of_mem hg))
  have hkept : ∀ g ∈ parts, g.kept (.obj m) = Json.member m (js g.name) ∧ g.dropped (.obj m) = [] := by
    intro g hg
    unfold Part.kept Part.dropped
    rw [hresult g hg]
    exact ⟨rfl, rfl⟩
  have hrun : ∀ g ∈ parts, g.run (.obj m) = .ok (js g.name, g.kept (.obj m), g.dropped (.obj m)) := by
    intro g hg
    unfold Part.run
    rw [hresult g hg, (hkept g hg).1, (hkept g hg).2]
  rw [validate_of_run rfl hrun, value]
  have hmembers : (parts.map fun g => (js g.name, g.kept (.obj m))) =
      (parts.map fun g => js g.name).map fun k => (k, Json.member m k) := by
    rw [List.map_map]
    apply List.map_congr_left
    intro g hg
    rw [(hkept g hg).1]
    rfl
  have hdropped : (parts.flatMap fun g => g.dropped (.obj m)) = [] :=
    List.flatMap_eq_nil_iff.2 fun g hg => (hkept g hg).2
  rw [hmembers, hdropped, Json.clean_of_sublist parts_nodup hsub]

/-- **The normal form.**  What the validator returns is stored, and the validator leaves it alone. -/
theorem stored_again {s v : Json} {d : List String} (h : validate s = .ok (v, d)) :
    Stored v ∧ validate v = .ok (v, []) := by
  obtain ⟨hrun, rfl, -⟩ := validate_eq_ok h
  have hstored : Stored (value s) := by
    refine ⟨_, rfl, ?_, fun f hf => ?_⟩
    · have hsub := Json.clean_keys (parts.map fun g => (js g.name, g.kept s))
      rw [value_keys] at hsub
      rw [List.map_map]
      exact hsub
    · obtain ⟨g, hg, rfl⟩ := List.mem_map.1 hf
      have hget := get_value s hg
      rw [value, Json.get_obj] at hget
      dsimp only
      rw [hget]
      exact (result_of_run (hrun g hg)).2
  exact ⟨hstored, hstored.validate⟩

/-- A hostile snapshot: a name of two lines, a share of 101 % and an unknown key. -/
private def hostile : Json := .obj [
  (js "schema", .num (some 1)), (js "ts", .num (some 1790000000000)), (js "interval", .num (some 60)),
  (js "host", .obj [(js "name", .str (js "nas\nbox")), (js "os", .str (js "linux"))]),
  (js "cpu", .obj [(js "usage", .num (some 101))]), (js "temp", .obj [(js "max", .null)]), (js "evil", .bool true)]

theorem hostile_stored : ∃ v, validate hostile = .ok (v, ["$.cpu.usage"]) ∧ Stored v ∧ validate v = .ok (v, []) := by
  have h : validate hostile = .ok (.obj [
      (js "schema", .num (some 1)), (js "ts", .num (some 1790000000000)), (js "interval", .num (some 60)),
      (js "host", .obj [(js "name", .str (js "nas box")), (js "os", .str (js "linux"))]),
      (js "temp", .obj [(js "max", .null)])], ["$.cpu.usage"]) := by rfl
  exact ⟨_, h, stored_again h⟩

/-! ### The groups are independent -/

private theorem dropped_names {s : Json} {g : Part} {e : String} (h : e ∈ g.dropped s) : ∃ t, e = "$." ++ g.name ++ t := by
  unfold Part.dropped at h
  split at h
  · cases h
  · rename_i e' he
    obtain rfl := List.mem_singleton.1 h
    exact g.check.names _ _ _ he

/-- Every part runs, or the first required one that fails refuses the snapshot. -/
private theorem run_of_ok {s : Json} (hno : ∀ e, parts.mapM (Part.run s) ≠ .error e) :
    ∀ g ∈ parts, g.run s = .ok (js g.name, g.kept s, g.dropped s) := by
  intro g hg
  cases hm : parts.mapM (Part.run s) with
  | error e => exact absurd hm (hno e)
  | ok rs =>
    obtain ⟨r, -, hr⟩ := mem_of_mapM_eq_ok hm hg
    rw [hr, (result_of_run hr).1]

/-- The snapshots have the same members, but for those of the group. -/
def SameBut (g : Part) (s s' : Json) : Prop := ∀ k, k ≠ js g.name → s.get k = s'.get k

variable {s s' : Json} {g : Part}

theorem SameBut.other (h : SameBut g s s') {g' : Part} (hne : js g'.name ≠ js g.name) :
    g'.result s = g'.result s' ∧ g'.kept s = g'.kept s' ∧ g'.dropped s = g'.dropped s' := by
  have hresult : g'.result s = g'.result s' := by
    unfold Part.result
    rw [h _ hne]
  unfold Part.kept Part.dropped
  rw [hresult]
  exact ⟨rfl, rfl, rfl⟩

/-- A part throws the same for both. -/
private theorem SameBut.run_error (h : SameBut g s s') (hg : g ∈ parts) (hopt : g.optional = true) :
    ∀ g' ∈ parts, ∀ e, g'.run s = .error e ↔ g'.run s' = .error e := by
  intro g' hg' e
  by_cases hname : js g'.name = js g.name
  · obtain rfl := List.inj_on_of_nodup_map parts_nodup hg' hg hname
    have hno : ∀ s, g'.run s ≠ .error e := by
      intro s he
      unfold Part.run at he
      rw [hopt] at he
      split at he <;> cases he
    exact iff_of_false (hno s) (hno s')
  · unfold Part.run
    rw [(h.other hname).1]

/-- The paths dropped around the group are the same for both, and of other groups. -/
private theorem SameBut.dropped (h : SameBut g s s') {l : List Part}
    (hl : ∀ g' ∈ l, g' ∈ parts ∧ js g'.name ≠ js g.name) :
    (l.flatMap fun g => g.dropped s) = (l.flatMap fun g => g.dropped s') ∧
      ∀ e ∈ l.flatMap fun g => g.dropped s, ∃ g' ∈ parts, g'.name ≠ g.name ∧ ∃ t, e = "$." ++ g'.name ++ t := by
  constructor
  · apply List.flatMap_congr
    intro g' hg'
    exact (h.other (hl g' hg').2).2.2
  · intro e he
    obtain ⟨g', hg', he⟩ := List.mem_flatMap.1 he
    exact ⟨g', (hl g' hg').1, fun hn => (hl g' hg').2 (by rw [hn]), dropped_names he⟩

private theorem parts_split (hg : g ∈ parts) : ∃ a b, parts = a ++ g :: b ∧
    (∀ g' ∈ a, g' ∈ parts ∧ js g'.name ≠ js g.name) ∧ ∀ g' ∈ b, g' ∈ parts ∧ js g'.name ≠ js g.name := by
  obtain ⟨a, b, hab⟩ := List.append_of_mem hg
  have hnodup := parts_nodup
  rw [hab, List.map_append, List.map_cons, List.nodup_append, List.nodup_cons] at hnodup
  obtain ⟨-, ⟨hb, -⟩, hdisjoint⟩ := hnodup
  refine ⟨a, b, hab, fun g' hg' => ⟨?_, ?_⟩, fun g' hg' => ⟨?_, ?_⟩⟩
  · rw [hab]
    exact List.mem_append_left _ hg'
  · exact hdisjoint _ (List.mem_map_of_mem hg') _ List.mem_cons_self
  · rw [hab]
    exact List.mem_append_right _ (List.mem_cons_of_mem _ hg')
  · exact fun he => hb (he ▸ List.mem_map_of_mem hg')

/-- **Independent groups.**  Two snapshots that differ in an optional group only are both refused, with the same path,
or both accepted: then the other groups are stored the same, the dropped paths differ in that group's one path, which is
there when its check fails, and the other paths are of other groups. -/
theorem groups_independent (hs : s.isObj = true) (hs' : s'.isObj = true) (hg : g ∈ parts) (hopt : g.optional = true)
    (hsame : SameBut g s s') :
    (∃ e, validate s = .error e ∧ validate s' = .error e) ∨
    ∃ v v' pre post, validate s = .ok (v, pre ++ g.dropped s ++ post) ∧
      validate s' = .ok (v', pre ++ g.dropped s' ++ post) ∧ (∀ k, k ≠ js g.name → v.get k = v'.get k) ∧
      v.get (js g.name) = g.kept s ∧ v'.get (js g.name) = g.kept s' ∧
      (∀ e, g.result s = .error e → ∃ t, e = "$." ++ g.name ++ t) ∧
      ∀ e ∈ pre ++ post, ∃ g' ∈ parts, g'.name ≠ g.name ∧ ∃ t, e = "$." ++ g'.name ++ t := by
  have herror := hsame.run_error hg hopt
  by_cases hrefused : ∃ e, parts.mapM (Part.run s) = .error e
  · obtain ⟨e, he⟩ := hrefused
    have he' := (mapM_error_congr herror e).1 he
    refine Or.inl ⟨e, ?_, ?_⟩
    · unfold validate
      rw [hs, he]
      rfl
    · unfold validate
      rw [hs', he']
      rfl
  · rw [not_exists] at hrefused
    have hok := validate_of_run hs (run_of_ok hrefused)
    have hok' := validate_of_run hs' (run_of_ok fun e he => hrefused e ((mapM_error_congr herror e).2 he))
    obtain ⟨a, b, hab, ha, hb⟩ := parts_split hg
    have hsplit : ∀ s, (parts.flatMap fun g => g.dropped s) =
        (a.flatMap fun g => g.dropped s) ++ g.dropped s ++ b.flatMap fun g => g.dropped s := by
      intro s
      rw [hab, List.flatMap_append, List.flatMap_cons, List.append_assoc]
    rw [hsplit] at hok hok'
    rw [← (hsame.dropped ha).1, ← (hsame.dropped hb).1] at hok'
    refine Or.inr ⟨_, _, _, _, hok, hok', fun k hk => ?_, get_value s hg, get_value s' hg,
      fun e he => g.check.names _ _ _ he, fun e he => ?_⟩
    · by_cases hpart : ∃ g' ∈ parts, js g'.name = k
      · obtain ⟨g', hg', rfl⟩ := hpart
        rw [get_value s hg', get_value s' hg', (hsame.other hk).2.1]
      · have hno : ∀ g' ∈ parts, js g'.name ≠ k := fun g' hg' he => hpart ⟨g', hg', he⟩
        rw [get_value_of_not s hno, get_value_of_not s' hno]
    · rcases List.mem_append.1 he with he | he
      · exact (hsame.dropped ha).2 e he
      · exact (hsame.dropped hb).2 e he

/-- A snapshot with a `cpu` group. -/
private def withCpu (c : Json) : Json := .obj [
  (js "schema", .num (some 1)), (js "ts", .num (some 1790000000000)), (js "interval", .num (some 60)),
  (js "cpu", c), (js "host", .obj [(js "name", .str (js "nas"))]), (js "fans", .str (js "x"))]

private def cpuPart : Part := opt "cpu" cpu (Or.inl ⟨Or.inl rfl, rfl⟩)

private theorem cpuPart_mem : cpuPart ∈ parts := List.mem_iff_getElem?.2 ⟨6, rfl⟩

/-- A share of 101 % costs the `cpu` group only. -/
theorem cpu_alone : ∃ v v' pre post, validate (withCpu (.obj [(js "usage", .num (some 5))])) = .ok (v, pre ++ post) ∧
    validate (withCpu (.obj [(js "usage", .num (some 101))])) = .ok (v', pre ++ ["$.cpu.usage"] ++ post) ∧
    ∀ k, k ≠ js "cpu" → v.get k = v'.get k := by
  have hsame : SameBut cpuPart (withCpu (.obj [(js "usage", .num (some 5))]))
      (withCpu (.obj [(js "usage", .num (some 101))])) := by
    intro k hk
    have hk : ¬ js "cpu" = k := Ne.symm hk
    simp only [withCpu, Json.get_obj, Json.member_cons, if_neg hk]
  rcases groups_independent rfl rfl cpuPart_mem rfl hsame with ⟨e, he, -⟩ | ⟨v, v', pre, post, hok, hok', hget, -⟩
  · cases he
  · have hkept : cpuPart.dropped (withCpu (.obj [(js "usage", .num (some 5))])) = [] := rfl
    rw [hkept, List.append_nil] at hok
    exact ⟨v, v', pre, post, hok, hok', hget⟩

end Snapshot

end Servitals
