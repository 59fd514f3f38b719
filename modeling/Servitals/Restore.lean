import Servitals.JsString
import Servitals.Lib.OMap

/-!
# Restoring a backup

The moves of `cmd_restore` in `bin/servitals-ctl`: the entries of the state directory go into a directory beside it, and
the backup's entries come in; when a move fails, what is in the state directory is removed and the old entries are put
back.  `backups` stays where it is throughout.

Each move or removal is a step of its own, and the machine may stop between two of them.  A step concerns one name only,
so a name is told by its own steps (`at_run`).  `Luck` says which moves and removals the file system lets through.
-/

namespace Servitals

namespace Restore

/-- `mv` into the kept directory, `mv` of a restored entry, `rm -rf`, and `mv` back. -/
inductive Kind
  | away | into | remove | back
  deriving DecidableEq

/-- The state directory, the directory that keeps the old state, and the restored one. -/
structure Dirs (α : Type*) where
  data : OMap JsString α
  keep : OMap JsString α
  new : OMap JsString α

/-- What a name stands for in the three directories. -/
structure Cell (α : Type*) where
  data : Option α
  keep : Option α
  new : Option α
  deriving DecidableEq

/-- Which entries the file system lets move away, into the state directory, be removed and move back. -/
structure Luck where
  away : JsString → Bool
  into : JsString → Bool
  remove : JsString → Bool
  back : JsString → Bool

/-- How a restore ends: restored, `the state before it is back`, or stopped in the middle of that by `set -e`. -/
inductive End
  | restored | back | stopped
  deriving DecidableEq

def backups : JsString := js "backups"

variable {α : Type*}

namespace Cell

def step (c : Cell α) : Kind → Cell α
  | .away => match c.data with
    | some x => { c with data := none, keep := some x }
    | none => c
  | .into => match c.new with
    | some x => { c with new := none, data := some x }
    | none => c
  | .remove => { c with data := none }
  | .back => match c.keep with
    | some x => { c with keep := none, data := some x }
    | none => c

end Cell

namespace Dirs

/-- What the directories hold under a name. -/
def at' (d : Dirs α) (n : JsString) : Cell α := ⟨d.data.get? n, d.keep.get? n, d.new.get? n⟩

/-- An entry leaves one directory and stands in the other. -/
def moved (src dst : OMap JsString α) (n : JsString) : OMap JsString α × OMap JsString α :=
  match src.get? n with
  | some x => (src.erase n, dst.set n x)
  | none => (src, dst)

def step (d : Dirs α) (s : Kind × JsString) : Dirs α :=
  match s.1 with
  | .away => let (data, keep) := moved d.data d.keep s.2; { d with data := data, keep := keep }
  | .into => let (new, data) := moved d.new d.data s.2; { d with new := new, data := data }
  | .remove => { d with data := d.data.erase s.2 }
  | .back => let (keep, data) := moved d.keep d.data s.2; { d with keep := keep, data := data }

def run (d : Dirs α) (steps : List (Kind × JsString)) : Dirs α := steps.foldl step d

/-- The entries of a directory that `find .. ! -name backups` gives. -/
def names (m : OMap JsString α) : List JsString := m.keys.filter (· ≠ backups)

/-- One `find .. -exec` over some names: the steps that went through, and whether all did. -/
def sweep (kind : Kind) (luck : JsString → Bool) (ns : List JsString) : List (Kind × JsString) × Bool :=
  ((ns.filter luck).map fun n => (kind, n), ns.all luck)

/-- What is done when a move failed: the state directory is emptied, and the old state put back. -/
def undo (d : Dirs α) (luck : Luck) : List (Kind × JsString) × End :=
  let (removes, removed) := sweep .remove luck.remove (names d.data)
  if removed then
    let (backs, all) := sweep .back luck.back d.keep.keys
    (removes ++ backs, if all then .back else .stopped)
  else (removes, .stopped)

/-- The steps of a restore, and how it ends. -/
def restore (d : Dirs α) (luck : Luck) : List (Kind × JsString) × End :=
  let (aways, gone) := sweep .away luck.away (names d.data)
  if gone then
    let (intos, came) := sweep .into luck.into d.new.keys
    if came then (aways ++ intos, .restored)
    else
      let (undone, e) := (d.run (aways ++ intos)).undo luck
      (aways ++ intos ++ undone, e)
  else
    let (undone, e) := (d.run aways).undo luck
    (aways ++ undone, e)

/-- Before the first move: nothing is kept yet, and `rm -rf "$NEW_DIR/backups"` is done. -/
structure Ready (d : Dirs α) : Prop where
  keep : d.keep = .empty
  new : d.new.get? backups = none

/-! ### One name -/

private theorem get?_moved (src dst : OMap JsString α) (m n : JsString) :
    (moved src dst m).1.get? n = (if m = n then none else src.get? n) ∧
      (moved src dst m).2.get? n = if m = n then (src.get? n).or (dst.get? n) else dst.get? n := by
  rw [moved]
  by_cases hmn : m = n
  · subst hmn
    cases hsrc : src.get? m with
    | none => simp [hsrc]
    | some x => simp
  · have hnm : n ≠ m := Ne.symm hmn
    cases src.get? m with
    | none => simp [hmn]
    | some x => simp [OMap.get?_erase, OMap.get?_set, hmn, hnm]

/-- A step concerns its own name. -/
private theorem at_step (d : Dirs α) (s : Kind × JsString) (n : JsString) :
    (d.step s).at' n = if s.2 = n then (d.at' n).step s.1 else d.at' n := by
  obtain ⟨kind, m⟩ := s
  cases kind with
  | away =>
    obtain ⟨hsrc, hdst⟩ := get?_moved d.data d.keep m n
    simp only [step, at', hsrc, hdst, Cell.step]
    by_cases hmn : m = n
    · simp only [hmn, if_true]
      cases d.data.get? n <;> rfl
    · simp only [hmn, if_false]
  | into =>
    obtain ⟨hsrc, hdst⟩ := get?_moved d.new d.data m n
    simp only [step, at', hsrc, hdst, Cell.step]
    by_cases hmn : m = n
    · simp only [hmn, if_true]
      cases d.new.get? n <;> rfl
    · simp only [hmn, if_false]
  | remove =>
    simp only [step, at', OMap.get?_erase, Cell.step]
    by_cases hmn : m = n
    · simp only [hmn, if_true]
    · simp only [hmn, Ne.symm hmn, if_false]
  | back =>
    obtain ⟨hsrc, hdst⟩ := get?_moved d.keep d.data m n
    simp only [step, at', hsrc, hdst, Cell.step]
    by_cases hmn : m = n
    · simp only [hmn, if_true]
      cases d.keep.get? n <;> rfl
    · simp only [hmn, if_false]

/-- The steps of one name. -/
def stepsOf (n : JsString) (steps : List (Kind × JsString)) : List Kind :=
  (steps.filter fun s => s.2 = n).map Prod.fst

private theorem stepsOf_append (n : JsString) (xs ys : List (Kind × JsString)) :
    stepsOf n (xs ++ ys) = stepsOf n xs ++ stepsOf n ys := by
  simp [stepsOf]

/-- What the directories hold under a name is told by the steps of that name. -/
theorem at_run (d : Dirs α) (steps : List (Kind × JsString)) (n : JsString) :
    (d.run steps).at' n = (stepsOf n steps).foldl Cell.step (d.at' n) := by
  induction steps generalizing d with
  | nil => rfl
  | cons s steps ih =>
    have hrun : d.run (s :: steps) = (d.step s).run steps := rfl
    rw [hrun, ih, at_step]
    by_cases hs : s.2 = n
    · simp [stepsOf, hs]
    · simp [stepsOf, hs]

theorem run_append (d : Dirs α) (xs ys : List (Kind × JsString)) : d.run (xs ++ ys) = (d.run xs).run ys :=
  List.foldl_append

/-- One sweep does one thing with each name of it, if the file system lets it. -/
private theorem stepsOf_sweep {ns : List JsString} (hns : ns.Nodup) (kind : Kind) (luck : JsString → Bool)
    (n : JsString) :
    stepsOf n (sweep kind luck ns).1 = if n ∈ ns ∧ luck n = true then [kind] else [] := by
  rw [stepsOf, sweep]
  induction ns with
  | nil => simp
  | cons m ns ih =>
    obtain ⟨hm, hns⟩ := List.nodup_cons.1 hns
    specialize ih hns
    by_cases hmn : m = n
    · subst hmn
      have hrest : ¬ (m ∈ ns ∧ luck m = true) := fun h => hm h.1
      rw [if_neg hrest] at ih
      by_cases hl : luck m = true
      · simp only [List.filter_cons, hl, if_true, List.map_cons, decide_true, ih, List.mem_cons, true_or, and_self]
      · simp only [List.filter_cons, hl, if_false, ih, and_false, Bool.false_eq_true]
    · by_cases hl : luck m = true
      · simp only [List.filter_cons, hl, if_true, List.map_cons, hmn, decide_false, Bool.false_eq_true, if_false, ih,
          List.mem_cons, Ne.symm hmn, false_or]
      · simp only [List.filter_cons, hl, Bool.false_eq_true, if_false, ih, List.mem_cons, Ne.symm hmn, false_or]

private theorem mem_names {m : OMap JsString α} {n : JsString} :
    n ∈ names m ↔ (m.get? n).isSome = true ∧ n ≠ backups := by
  rw [names, List.mem_filter, OMap.mem_keys_iff, Option.isSome_iff_exists, decide_eq_true_eq]

private theorem nodup_names (m : OMap JsString α) : (names m).Nodup := m.nodup.filter _

private theorem mem_keys {m : OMap JsString α} {n : JsString} : n ∈ m.keys ↔ (m.get? n).isSome = true := by
  rw [OMap.mem_keys_iff, Option.isSome_iff_exists]

private theorem stepsOf_names (m : OMap JsString α) (kind : Kind) (luck : JsString → Bool) (n : JsString) :
    stepsOf n (sweep kind luck (names m)).1 =
      if ((m.get? n).isSome = true ∧ n ≠ backups) ∧ luck n = true then [kind] else [] := by
  rw [stepsOf_sweep (nodup_names m)]
  exact if_congr (and_congr_left' mem_names) rfl rfl

private theorem stepsOf_keys (m : OMap JsString α) (kind : Kind) (luck : JsString → Bool) (n : JsString) :
    stepsOf n (sweep kind luck m.keys).1 = if (m.get? n).isSome = true ∧ luck n = true then [kind] else [] := by
  rw [stepsOf_sweep (show m.keys.Nodup from m.nodup)]
  exact if_congr (and_congr_left' mem_keys) rfl rfl

/-! ### Stopped at any step -/

/-- Restored entries that come in, and removals, leave what is kept. -/
private theorem keep_run {d : Dirs α} {steps : List (Kind × JsString)} (h : ∀ s ∈ steps, s.1 = .into ∨ s.1 = .remove)
    (n : JsString) : (d.run steps).keep.get? n = d.keep.get? n := by
  have hat : ((d.run steps).at' n).keep = (d.at' n).keep := by
    rw [at_run]
    have hkinds : ∀ k ∈ stepsOf n steps, k = .into ∨ k = .remove := by
      intro k hk
      obtain ⟨s, hs, rfl⟩ := List.mem_map.1 hk
      exact h s (List.mem_of_mem_filter hs)
    generalize stepsOf n steps = ks at hkinds
    generalize d.at' n = c
    induction ks generalizing c with
    | nil => rfl
    | cons k ks ih =>
      rw [List.foldl_cons, ih fun k' hk' => hkinds k' (List.mem_cons_of_mem k hk')]
      rcases hkinds k List.mem_cons_self with rfl | rfl
      · simp only [Cell.step]
        split <;> rfl
      · rfl
  exact hat

private theorem kind_of_mem_sweep {kind : Kind} {luck : JsString → Bool} {ns : List JsString} {s : Kind × JsString}
    (h : s ∈ (sweep kind luck ns).1) : s.1 = kind := by
  obtain ⟨n, -, rfl⟩ := List.mem_map.1 h
  rfl

/-- What comes after the state directory is emptied: entries that come in and removals, and then what moves back. -/
private theorem parts_undo (d : Dirs α) (luck : Luck) : ∃ ms bs, (d.undo luck).1 = ms ++ bs ∧
    (∀ s ∈ ms, s.1 = .into ∨ s.1 = .remove) ∧ ∀ n, stepsOf n bs = [] ∨ stepsOf n bs = [.back] := by
  have hremoves : ∀ s ∈ (sweep .remove luck.remove (names d.data)).1, s.1 = .into ∨ s.1 = .remove :=
    fun s hs => .inr (kind_of_mem_sweep hs)
  rw [undo]
  dsimp only
  split
  · refine ⟨_, _, rfl, hremoves, fun n => ?_⟩
    rw [stepsOf_keys]
    split
    · exact .inr rfl
    · exact .inl rfl
  · exact ⟨_, [], (List.append_nil _).symm, hremoves, fun n => .inl rfl⟩

private theorem parts_restore (d : Dirs α) (luck : Luck) : ∃ ms bs,
    (d.restore luck).1 = (sweep .away luck.away (names d.data)).1 ++ (ms ++ bs) ∧
    (∀ s ∈ ms, s.1 = .into ∨ s.1 = .remove) ∧ ∀ n, stepsOf n bs = [] ∨ stepsOf n bs = [.back] := by
  have hintos : ∀ s ∈ (sweep .into luck.into d.new.keys).1, s.1 = .into ∨ s.1 = .remove :=
    fun s hs => .inl (kind_of_mem_sweep hs)
  rw [restore]
  dsimp only
  split
  · split
    · exact ⟨_, [], by simp, hintos, fun n => .inl rfl⟩
    · obtain ⟨ms, bs, hundo, hms, hbs⟩ := parts_undo
        (d.run ((sweep .away luck.away (names d.data)).1 ++ (sweep .into luck.into d.new.keys).1)) luck
      refine ⟨(sweep .into luck.into d.new.keys).1 ++ ms, bs, ?_, fun s hs => ?_, hbs⟩
      · rw [hundo]
        simp
      · exact (List.mem_append.1 hs).elim (hintos s) (hms s)
  · obtain ⟨ms, bs, hundo, hms, hbs⟩ := parts_undo (d.run (sweep .away luck.away (names d.data)).1) luck
    exact ⟨ms, bs, by rw [hundo], hms, hbs⟩

/-- The steps of one name in the first steps of a sweep. -/
private theorem stepsOf_take {steps : List (Kind × JsString)} {kind : Kind} {n : JsString}
    (h : stepsOf n steps = [] ∨ stepsOf n steps = [kind]) (k : ℕ) :
    stepsOf n (steps.take k) = [] ∨ stepsOf n (steps.take k) = [kind] := by
  have hprefix : stepsOf n (steps.take k) <+: stepsOf n steps := ((List.take_prefix k steps).filter _).map _
  rcases h with h | h
  · rw [h, List.prefix_nil] at hprefix
    exact .inl hprefix
  · rw [h] at hprefix
    rcases List.prefix_concat_iff.1 (show stepsOf n (steps.take k) <+: [] ++ [kind] from hprefix) with h' | h'
    · exact .inr h'
    · exact .inl (List.prefix_nil.1 h')

/-- However far a restore gets, an entry of the old state that could be moved away is in the state directory or beside
it. -/
private theorem kept_or_there {d : Dirs α} (h : d.Ready) (luck : Luck) (k : ℕ) {n : JsString} {x : α} (hn : n ≠ backups)
    (hx : d.data.get? n = some x) (hluck : luck.away n = true) :
    (d.run ((d.restore luck).1.take k)).data.get? n = some x ∨
      (d.run ((d.restore luck).1.take k)).keep.get? n = some x := by
  have hcell : d.at' n = ⟨some x, none, d.new.get? n⟩ := by
    rw [at', hx, h.keep]
    rfl
  have hmem : n ∈ names d.data := mem_names.2 ⟨by rw [hx]; rfl, hn⟩
  have haway : stepsOf n (sweep .away luck.away (names d.data)).1 = [.away] := by
    rw [stepsOf_names, if_pos ⟨mem_names.1 hmem, hluck⟩]
  obtain ⟨ms, bs, hsteps, hms, hbs⟩ := parts_restore d luck
  rw [hsteps, List.take_append]
  generalize hj : k - (sweep .away luck.away (names d.data)).1.length = j
  by_cases hk : k < (sweep .away luck.away (names d.data)).1.length
  · -- the entry is still to be moved away, or was
    have hzero : j = 0 := by omega
    rw [hzero, List.take_zero, List.append_nil]
    have hat := at_run d ((sweep .away luck.away (names d.data)).1.take k) n
    rw [hcell] at hat
    rcases stepsOf_take (.inr haway) k with hnone | hone
    · rw [hnone] at hat
      exact .inl (congrArg Cell.data hat)
    · rw [hone] at hat
      exact .inr (congrArg Cell.keep hat)
  · rw [List.take_of_length_le (by omega), run_append, List.take_append, run_append]
    have hfirst := at_run d (sweep .away luck.away (names d.data)).1 n
    rw [haway, hcell] at hfirst
    have hkeep : (d.run (sweep .away luck.away (names d.data)).1).keep.get? n = some x := congrArg Cell.keep hfirst
    have hkeep' : ((d.run (sweep .away luck.away (names d.data)).1).run (ms.take j)).keep.get? n = some x := by
      rw [keep_run (fun s hs => hms s (List.mem_of_mem_take hs)), hkeep]
    generalize (d.run (sweep .away luck.away (names d.data)).1).run (ms.take j) = d' at hkeep'
    have hat := at_run d' (bs.take (j - ms.length)) n
    rcases stepsOf_take (hbs n) (j - ms.length) with hnone | hone
    · rw [hnone] at hat
      exact .inr ((congrArg Cell.keep hat).trans hkeep')
    · rw [hone] at hat
      refine .inl ((congrArg Cell.data hat).trans ?_)
      simp only [List.foldl_cons, List.foldl_nil, Cell.step, at', hkeep']

/-! ### How it ends -/

/-- The state directory after the old state was put back: what was kept, and nothing else but `backups`. -/
private theorem at_undo {d : Dirs α} {luck : Luck} (h : (d.undo luck).2 = .back) (hkeep : d.keep.get? backups = none)
    (n : JsString) : (d.run (d.undo luck).1).data.get? n = if n = backups then d.data.get? n else d.keep.get? n := by
  have hremove : (sweep .remove luck.remove (names d.data)).2 = true := by
    by_contra hno
    rw [undo] at h
    dsimp only at h
    rw [if_neg hno] at h
    cases h
  have hback : (sweep .back luck.back d.keep.keys).2 = true := by
    by_contra hno
    rw [undo] at h
    dsimp only at h
    rw [if_pos hremove, if_neg hno] at h
    cases h
  have hsteps : (d.undo luck).1 =
      (sweep .remove luck.remove (names d.data)).1 ++ (sweep .back luck.back d.keep.keys).1 := by
    rw [undo]
    dsimp only
    rw [if_pos hremove]
  have hat := at_run d (d.undo luck).1 n
  rw [hsteps, stepsOf_append, stepsOf_names, stepsOf_keys] at hat
  rw [hsteps]
  refine (congrArg Cell.data hat).trans ?_
  by_cases hn : n = backups
  · subst hn
    simp [hkeep, at']
  · rw [if_neg hn]
    -- what is left there is removed, and what was kept comes back
    have hlucky : (d.data.get? n).isSome = true → luck.remove n = true := fun hsome =>
      List.all_eq_true.1 hremove n (mem_names.2 ⟨hsome, hn⟩)
    have hlucky' : (d.keep.get? n).isSome = true → luck.back n = true := fun hsome =>
      List.all_eq_true.1 hback n (mem_keys.2 hsome)
    rw [at']
    cases hdata : d.data.get? n with
    | none =>
      cases hk : d.keep.get? n with
      | none => simp
      | some x => simp [hlucky' (by rw [hk]; rfl), Cell.step]
    | some y =>
      cases hk : d.keep.get? n with
      | none => simp [hlucky (by rw [hdata]; rfl), hn, Cell.step]
      | some x => simp [hlucky (by rw [hdata]; rfl), hlucky' (by rw [hk]; rfl), hn, Cell.step]

/-- The directories when the old entries moved away, as far as they could. -/
private theorem at_away (d : Dirs α) (luck : Luck) (n : JsString) :
    (d.run (sweep .away luck.away (names d.data)).1).at' n =
      if n ≠ backups ∧ luck.away n = true then (d.at' n).step .away else d.at' n := by
  rw [at_run, stepsOf_names]
  by_cases hn : n ≠ backups ∧ luck.away n = true
  · rw [if_pos hn]
    cases hdata : d.data.get? n with
    | none => simp [at', hdata, Cell.step]
    | some x => simp [hn.1, hn.2]
  · have hno : ¬ (((d.data.get? n).isSome = true ∧ n ≠ backups) ∧ luck.away n = true) := fun h => hn ⟨h.1.2, h.2⟩
    rw [if_neg hn, if_neg hno]
    rfl

private theorem at_into (d : Dirs α) (luck : Luck) (n : JsString) :
    (d.run (sweep .into luck.into d.new.keys).1).at' n =
      if luck.into n = true then (d.at' n).step .into else d.at' n := by
  rw [at_run, stepsOf_keys]
  by_cases hn : luck.into n = true
  · rw [if_pos hn]
    cases hnew : d.new.get? n with
    | none => simp [at', hnew, Cell.step]
    | some x => simp [hn]
  · rw [if_neg hn, if_neg fun h => hn h.2]
    rfl

private theorem new_run {d : Dirs α} {steps : List (Kind × JsString)} (h : ∀ s ∈ steps, s.1 = .away) :
    (d.run steps).new = d.new := by
  induction steps generalizing d with
  | nil => rfl
  | cons s steps ih =>
    obtain ⟨kind, n⟩ := s
    obtain rfl : kind = .away := h _ List.mem_cons_self
    have hrest := @ih (d.step (.away, n)) fun s hs => h s (List.mem_cons_of_mem _ hs)
    exact hrest

/-- The directories when the restored entries came in, as far as they could. -/
private theorem at_away_into (d : Dirs α) (luck : Luck) (n : JsString) :
    (d.run ((sweep .away luck.away (names d.data)).1 ++ (sweep .into luck.into d.new.keys).1)).at' n =
      if luck.into n = true then ((d.run (sweep .away luck.away (names d.data)).1).at' n).step .into
      else (d.run (sweep .away luck.away (names d.data)).1).at' n := by
  have hnew : (d.run (sweep .away luck.away (names d.data)).1).new = d.new :=
    new_run fun s hs => kind_of_mem_sweep hs
  rw [run_append, ← hnew, at_into]

private theorem keep_away {d : Dirs α} (h : d.Ready) (luck : Luck) (n : JsString) :
    (d.run (sweep .away luck.away (names d.data)).1).keep.get? n =
      if n ≠ backups ∧ luck.away n = true then d.data.get? n else none := by
  have hkeep : d.keep.get? n = none := by rw [h.keep]; rfl
  refine (congrArg Cell.keep (at_away d luck n)).trans ?_
  split
  · simp only [at', hkeep, Cell.step]
    cases d.data.get? n <;> rfl
  · exact hkeep

private theorem data_away_backups (d : Dirs α) (luck : Luck) :
    (d.run (sweep .away luck.away (names d.data)).1).data.get? backups = d.data.get? backups := by
  refine (congrArg Cell.data (at_away d luck backups)).trans ?_
  rw [if_neg fun hb => hb.1 rfl]
  rfl

/-- A restore that says that the state before it is back: an entry is there again unless it could not be moved away in
the first place; then it was removed. -/
private theorem data_of_back {d : Dirs α} (h : d.Ready) {luck : Luck} (hend : (d.restore luck).2 = .back)
    (n : JsString) :
    (d.run (d.restore luck).1).data.get? n =
      if n = backups ∨ luck.away n = true then d.data.get? n else none := by
  -- the undoing begins with what was kept and with `backups`
  have hundo : ∀ steps : List (Kind × JsString), ((d.run steps).undo luck).2 = .back →
      (∀ m, (d.run steps).keep.get? m = if m ≠ backups ∧ luck.away m = true then d.data.get? m else none) →
      (d.run steps).data.get? backups = d.data.get? backups →
      (d.run (steps ++ ((d.run steps).undo luck).1)).data.get? n =
        if n = backups ∨ luck.away n = true then d.data.get? n else none := by
    intro steps hback hkeep hb
    have hnone : (d.run steps).keep.get? backups = none := by rw [hkeep, if_neg fun hb => hb.1 rfl]
    rw [run_append, at_undo hback hnone, hkeep]
    by_cases hn : n = backups
    · subst hn
      simp [hb]
    · simp [hn]
  rw [restore] at hend ⊢
  dsimp only at hend ⊢
  by_cases hgone : (sweep .away luck.away (names d.data)).2 = true
  · rw [if_pos hgone] at hend ⊢
    by_cases hcame : (sweep .into luck.into d.new.keys).2 = true
    · rw [if_pos hcame] at hend
      cases hend
    · rw [if_neg hcame] at hend ⊢
      refine hundo _ hend (fun m => ?_) ?_
      · rw [run_append, keep_run fun s hs => .inl (kind_of_mem_sweep hs), keep_away h]
      · refine (congrArg Cell.data (at_away_into d luck backups)).trans ?_
        have hnew : ((d.run (sweep .away luck.away (names d.data)).1).at' backups).new = none := by
          rw [at', new_run fun s hs => kind_of_mem_sweep hs]
          exact h.new
        split
        · rw [Cell.step, hnew]
          exact data_away_backups d luck
        · exact data_away_backups d luck
  · rw [if_neg hgone] at hend ⊢
    exact hundo _ hend (keep_away h luck) (data_away_backups d luck)

private theorem undo_ne_restored (d : Dirs α) (luck : Luck) : (d.undo luck).2 ≠ .restored := by
  rw [undo]
  dsimp only
  split
  · split <;> exact nofun
  · exact nofun

/-- A restore goes through exactly when every move of it does. -/
private theorem restored_iff (d : Dirs α) (luck : Luck) : (d.restore luck).2 = .restored ↔
    (∀ n ∈ names d.data, luck.away n = true) ∧ ∀ n ∈ d.new.keys, luck.into n = true := by
  have haway : (sweep .away luck.away (names d.data)).2 = true ↔ ∀ n ∈ names d.data, luck.away n = true :=
    List.all_eq_true
  have hinto : (sweep .into luck.into d.new.keys).2 = true ↔ ∀ n ∈ d.new.keys, luck.into n = true := List.all_eq_true
  rw [← haway, ← hinto, restore]
  dsimp only
  split
  · rename_i hgone
    split
    · rename_i hcame
      simp only [hgone, hcame, and_self]
    · rename_i hcame
      exact iff_of_false (undo_ne_restored _ luck) fun h => hcame h.2
  · rename_i hgone
    exact iff_of_false (undo_ne_restored _ luck) fun h => hgone h.1

/-- A restore that went through: the backup's entries beside the old `backups`, and the whole old state kept. -/
private theorem data_of_restored {d : Dirs α} (h : d.Ready) {luck : Luck} (hend : (d.restore luck).2 = .restored)
    (n : JsString) :
    (d.run (d.restore luck).1).data.get? n = (if n = backups then d.data.get? n else d.new.get? n) ∧
      (d.run (d.restore luck).1).keep.get? n = if n = backups then none else d.data.get? n := by
  rw [restore] at hend ⊢
  dsimp only at hend ⊢
  by_cases hgone : (sweep .away luck.away (names d.data)).2 = true
  · rw [if_pos hgone] at hend ⊢
    by_cases hcame : (sweep .into luck.into d.new.keys).2 = true
    · rw [if_pos hcame]
      have hkeep : d.keep.get? n = none := by rw [h.keep]; rfl
      have hat := at_away_into d luck n
      rw [at_away] at hat
      suffices hcell : (d.run ((sweep .away luck.away (names d.data)).1 ++ (sweep .into luck.into d.new.keys).1)).at' n =
          if n = backups then d.at' n else ⟨d.new.get? n, d.data.get? n, none⟩ by
        constructor
        · refine (congrArg Cell.data hcell).trans ?_
          split <;> rfl
        · refine (congrArg Cell.keep hcell).trans ?_
          split
          · exact hkeep
          · rfl
      rw [hat]
      by_cases hn : n = backups
      · subst hn
        simp [at', h.new, Cell.step]
      · -- each entry moved, one way and the other
        have hdata : (d.data.get? n).isSome = true → luck.away n = true := fun hsome =>
          List.all_eq_true.1 hgone n (mem_names.2 ⟨hsome, hn⟩)
        have hnew : (d.new.get? n).isSome = true → luck.into n = true := fun hsome =>
          List.all_eq_true.1 hcame n (mem_keys.2 hsome)
        rw [at', hkeep]
        cases hd : d.data.get? n with
        | none =>
          cases hw : d.new.get? n with
          | none => simp [hn, Cell.step]
          | some w => simp [hn, hnew (by rw [hw]; rfl), Cell.step]
        | some x =>
          cases hw : d.new.get? n with
          | none => simp [hn, hdata (by rw [hd]; rfl), Cell.step]
          | some w => simp [hn, hdata (by rw [hd]; rfl), hnew (by rw [hw]; rfl), Cell.step]
    · rw [if_neg hcame] at hend
      exact absurd hend (undo_ne_restored _ luck)
  · rw [if_neg hgone] at hend
    exact absurd hend (undo_ne_restored _ luck)

/-- The state before a restore is back, as the message says, exactly when each entry of it could be moved away. -/
private theorem same_of_back_iff {d : Dirs α} (h : d.Ready) {luck : Luck} (hend : (d.restore luck).2 = .back) :
    (∀ n, (d.run (d.restore luck).1).data.get? n = d.data.get? n) ↔ ∀ n ∈ names d.data, luck.away n = true := by
  constructor
  · intro hall n hn
    obtain ⟨hsome, hb⟩ := mem_names.1 hn
    by_contra hno
    have hdata := data_of_back h hend n
    rw [hall n, if_neg fun hor => hor.elim hb hno] at hdata
    rw [hdata] at hsome
    cases hsome
  · intro hall n
    rw [data_of_back h hend n]
    split
    · rfl
    · rename_i hno
      cases hdata : d.data.get? n with
      | none => rfl
      | some x =>
        have hb : n ≠ backups := fun hb => hno (.inl hb)
        exact absurd (hall n (mem_names.2 ⟨by rw [hdata]; rfl, hb⟩)) fun ha => hno (.inr ha)

/-- A restore over any file system: wherever it stops, what could be moved away is there or kept; it goes through exactly
when every move does, and then the backup is there and the old state kept; and when it says that the old state is back,
it is exactly if each entry could be moved away. -/
theorem restore_sound {d : Dirs α} (h : d.Ready) (luck : Luck) :
    (∀ (k : ℕ) (n : JsString) (x : α), n ≠ backups → d.data.get? n = some x → luck.away n = true →
      (d.run ((d.restore luck).1.take k)).data.get? n = some x ∨
        (d.run ((d.restore luck).1.take k)).keep.get? n = some x) ∧
    ((d.restore luck).2 = .restored ↔
      (∀ n ∈ names d.data, luck.away n = true) ∧ ∀ n ∈ d.new.keys, luck.into n = true) ∧
    ((d.restore luck).2 = .restored → ∀ n,
      (d.run (d.restore luck).1).data.get? n = (if n = backups then d.data.get? n else d.new.get? n) ∧
        (d.run (d.restore luck).1).keep.get? n = if n = backups then none else d.data.get? n) ∧
    ((d.restore luck).2 = .back →
      ((∀ n, (d.run (d.restore luck).1).data.get? n = d.data.get? n) ↔ ∀ n ∈ names d.data, luck.away n = true)) :=
  ⟨fun k _ _ hn hx hluck => kept_or_there h luck k hn hx hluck, restored_iff d luck, data_of_restored h,
    same_of_back_iff h⟩

/-- A state of two files and the backups, and a backup of one. -/
def oneFile : Dirs ℕ where
  data := ((OMap.empty.set (js "nodes.json") 1).set (js "secret") 2).set backups 3
  keep := .empty
  new := OMap.empty.set (js "nodes.json") 4

/-- A file system where one file stays and the backup's does not come in. -/
def stuckFile : Luck where
  away n := n != js "secret"
  into _ := false
  remove _ := true
  back _ := true

theorem restore_stuck : (oneFile.restore stuckFile).2 = .back ∧
    ((∀ n, (oneFile.run (oneFile.restore stuckFile).1).data.get? n = oneFile.data.get? n) ↔
      ∀ n ∈ names oneFile.data, stuckFile.away n = true) :=
  ⟨by decide, (restore_sound ⟨rfl, by decide⟩ stuckFile).2.2.2 (by decide)⟩

example : (oneFile.restore stuckFile).2 = .back ∧
    (oneFile.run (oneFile.restore stuckFile).1).data.get? (js "secret") = none := by decide

end Dirs

end Restore

end Servitals
