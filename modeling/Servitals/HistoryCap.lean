import Servitals.HistoryNames
import Servitals.Lib.Runs

/-!
# The cap on a node's series

The history with `known`, the names of ring files that it has in memory: a node's directory is read once, and the names
follow the writes, the sweeps and the removals from then on.  The cap is checked against them.  They are those of the
directory in every state (`Exact`), so the cached history takes the steps of the history that reads the directory each
time, a node never has more ring files than the cap, and a series that has a file is written on (`cap_only_refuses_new`).
-/

namespace Servitals

/-- The ring files in a node's directory. -/
def History.ringFiles (h : History) (node : NodeId) : List JsString :=
  (h.files.keys.filter fun k => k.1 = node).map Prod.snd

private theorem History.mem_ringFiles {h : History} {node : NodeId} {f : JsString} :
    f ∈ h.ringFiles node ↔ h.files.contains (node, f) = true := by
  rw [ringFiles, OMap.contains_iff, ← OMap.mem_keys_iff, List.mem_map]
  constructor
  · rintro ⟨⟨n, f'⟩, hk, rfl⟩
    obtain ⟨hk, hn⟩ := List.mem_filter.1 hk
    rwa [← of_decide_eq_true hn]
  · exact fun hk => ⟨(node, f), List.mem_filter.2 ⟨hk, decide_eq_true rfl⟩, rfl⟩

private theorem History.nodup_ringFiles (h : History) (node : NodeId) : (h.ringFiles node).Nodup := by
  refine List.Nodup.map_on (fun k hk k' hk' heq => ?_) (h.files.nodup.filter _)
  have hn := of_decide_eq_true (List.mem_filter.1 hk).2
  have hn' := of_decide_eq_true (List.mem_filter.1 hk').2
  exact Prod.ext (hn.trans hn'.symm) heq

/-- The history, and `known`. -/
structure Cached where
  history : History
  known : OMap NodeId (List JsString)

namespace Cached

open History

/-- A new process over an empty directory. -/
def empty : Cached := ⟨.empty, .empty⟩

/-- `namesOf`: those in memory, else those in the directory. -/
def namesOf (c : Cached) (node : NodeId) : List JsString := (c.known.get? node).getD (c.history.ringFiles node)

/-- After `namesOf`. -/
def reading (c : Cached) (node : NodeId) : Cached := { c with known := c.known.set node (c.namesOf node) }

/-- A name that is no longer in the directory. -/
def forget (known : OMap NodeId (List JsString)) (k : NodeId × JsString) : OMap NodeId (List JsString) :=
  match known.get? k.1 with
  | some files => known.set k.1 (files.erase k.2)
  | none => known

section

variable (f32 : ℚ → ℚ) (digest : JsString → JsString) (maxSeries : ℕ)

/-- `admit`: may the node take this series? -/
def admits (c : Cached) (key : SeriesKey) : Bool :=
  (c.namesOf key.1).contains (fileOf digest key.2) || decide ((c.namesOf key.1).length < maxSeries)

/-- `close`: an open minute is written. -/
def close (c : Cached) (key : SeriesKey) (cur : Cur) : Cached :=
  if c.admits digest maxSeries key then
    { history := c.history.onDisk digest key
        (RingFile.minuteWrites f32 (c.history.files.get? (fileKey digest key)) (shapeOf key.2) cur.minute cur.point)
      known := c.known.set key.1 ((c.namesOf key.1).insert (fileOf digest key.2)) }
  else c.reading key.1

/-- A minute is opened with its first value, unless the series is refused. -/
def openMinute (c : Cached) (key : SeriesKey) (minute : ℤ) (v : ℚ) : Cached :=
  if c.admits digest maxSeries key then
    { c.reading key.1 with history := { c.history with opened := c.history.opened.set key (.first minute v) } }
  else c.reading key.1

/-- `add`, for one value. -/
def addOne (c : Cached) (key : SeriesKey) (v : ℚ) (t : ℕ) : Cached :=
  let minute : ℤ := t / History.MIN
  let c : Cached := { c with history := { c.history with added := c.history.added ++ [⟨key, minute, v⟩] } }
  match c.history.opened.get? key with
  | some cur =>
    if cur.minute = minute then { c with history := { c.history with opened := c.history.opened.set key (cur.push v) } }
    else (c.close f32 digest maxSeries key cur).openMinute digest maxSeries key minute v
  | none => c.openMinute digest maxSeries key minute v

def addEntry (node : NodeId) (t : ℕ) (c : Cached) (e : JsString × Option ℚ) : Cached :=
  match e.2 with
  | some v => c.addOne f32 digest maxSeries (node, e.1) v t
  | none => c

/-- `add` -/
def add (c : Cached) (node : NodeId) (values : OMap JsString (Option ℚ)) (t : ℕ) : Cached :=
  values.entries.foldl (addEntry f32 digest maxSeries node t) c

def flushOne (t : ℕ) (c : Cached) (e : SeriesKey × Cur) : Cached :=
  let c := c.close f32 digest maxSeries e.1 e.2
  if e.2.minute < t / History.MIN then { c with history := { c.history with opened := c.history.opened.erase e.1 } } else c

/-- `flush` -/
def flush (c : Cached) (t : ℕ) : Cached := c.history.opened.entries.foldl (flushOne f32 digest maxSeries t) c

/-- A new process over the directory. -/
def restart (c : Cached) : Cached := ⟨c.history.restart, .empty⟩

/-- `remove` -/
def remove (c : Cached) (node : NodeId) : Cached :=
  ⟨c.history.without (fun n => n = node) fun k => k.1 = node, c.known.erase node⟩

/-- `sweep` -/
def sweep (c : Cached) (alive : Option (List NodeId)) (bare : List NodeId) (t : ℕ) : Cached where
  history := c.history.without (c.history.sweptNode alive bare) (c.history.sweptFile alive bare t)
  known := (c.history.files.keys.filter (c.history.sweptFile alive bare t)).foldl forget
    (c.known.filter fun node _ => !c.history.sweptNode alive bare node)

end

/-- A call, or the process stops and starts again. -/
inductive Call
  | add (node : NodeId) (values : OMap JsString (Option ℚ))
  | flush
  | restart
  | remove (node : NodeId)
  | sweep (alive : Option (List NodeId)) (bare : List NodeId)

/-- The step of the history with names. -/
def Call.op : Call → Named.Op
  | .add node values => .call (.add node values)
  | .flush => .call .flush
  | .restart => .call .restart
  | .remove node => .remove node
  | .sweep alive bare => .sweep alive bare

section

variable (f32 : ℚ → ℚ) (digest : JsString → JsString) (maxSeries : ℕ)

def effect (c : Cached) (t : ℕ) : Call → Cached
  | .add node values => c.add f32 digest maxSeries node values t
  | .flush => c.flush f32 digest maxSeries t
  | .restart => c.restart
  | .remove node => c.remove node
  | .sweep alive bare => c.sweep alive bare t

/-- A call at a time of the clock. -/
def step (c : Cached) (s : ℕ × Call) : Cached :=
  let c := c.effect f32 digest maxSeries s.1 s.2
  { c with history := { c.history with clock := s.1 } }

/-- A state in the middle of a call: before the value, or the open minute, at a place. -/
def during (c : Cached) (t place : ℕ) : Call → Cached
  | .add node values => (values.entries.take place).foldl (addEntry f32 digest maxSeries node t) c
  | .flush => (c.history.opened.entries.take place).foldl (flushOne f32 digest maxSeries t) c
  | _ => c

end

/-! ### What is in memory -/

/-- The names in memory are those of the directories. -/
def Exact (c : Cached) : Prop :=
  ∀ node files, c.known.get? node = some files → files.Nodup ∧ ∀ f, f ∈ files ↔ c.history.files.contains (node, f) = true

private theorem exact_empty : empty.Exact := fun _ _ h => by cases h

variable {f32 : ℚ → ℚ} {digest : JsString → JsString} {maxSeries : ℕ} {c : Cached}

theorem Exact.namesOf (hc : c.Exact) (node : NodeId) :
    (c.namesOf node).Nodup ∧ ∀ f, f ∈ c.namesOf node ↔ c.history.files.contains (node, f) = true := by
  unfold Cached.namesOf
  cases hk : c.known.get? node with
  | none => exact ⟨c.history.nodup_ringFiles node, fun f => mem_ringFiles⟩
  | some files => exact hc node files hk

private theorem Exact.length_namesOf (hc : c.Exact) (node : NodeId) :
    (c.namesOf node).length = (c.history.ringFiles node).length := by
  obtain ⟨hnodup, hmem⟩ := hc.namesOf node
  refine ((List.perm_ext_iff_of_nodup hnodup (c.history.nodup_ringFiles node)).2 fun f => ?_).length_eq
  rw [hmem, mem_ringFiles]

/-- The cap is checked as against the directory itself. -/
theorem Exact.admits (hc : c.Exact) (key : SeriesKey) : c.admits digest maxSeries key = c.history.admits digest maxSeries key := by
  have hcontains : (c.namesOf key.1).contains (fileOf digest key.2) = c.history.files.contains (fileKey digest key) := by
    rw [Bool.eq_iff_iff, List.contains_iff_mem, (hc.namesOf key.1).2]
    rfl
  have hlen : (c.history.files.entries.filter fun e => e.1.1 = key.1).length = (c.history.ringFiles key.1).length := by
    rw [ringFiles, List.length_map, OMap.keys, List.filter_map, List.length_map]
    rfl
  rw [Cached.admits, hcontains, hc.length_namesOf, History.admits, hlen]

/-- Exact names stay so when a node's are set to those of its directory, and the files are as before. -/
theorem Exact.set {h : History} {known : OMap NodeId (List JsString)} {node : NodeId} {files : List JsString}
    (hrest : ∀ n fs, n ≠ node → known.get? n = some fs → fs.Nodup ∧ ∀ f, f ∈ fs ↔ h.files.contains (n, f) = true)
    (hnodup : files.Nodup) (hmem : ∀ f, f ∈ files ↔ h.files.contains (node, f) = true) :
    Exact ⟨h, known.set node files⟩ := by
  intro n fs hfs
  dsimp only at hfs ⊢
  rw [OMap.get?_set] at hfs
  by_cases hn : n = node
  · rw [if_pos hn] at hfs
    rw [← Option.some.inj hfs, hn]
    exact ⟨hnodup, hmem⟩
  · rw [if_neg hn] at hfs
    exact hrest n fs hn hfs

theorem Exact.reading (hc : c.Exact) (node : NodeId) : (c.reading node).Exact :=
  Exact.set (fun n fs _ h => hc n fs h) (hc.namesOf node).1 (hc.namesOf node).2

/-- Only the files matter. -/
theorem Exact.congr (hc : c.Exact) {h : History} (hfiles : h.files = c.history.files) : Exact { c with history := h } := by
  intro node files hk
  dsimp only
  rw [hfiles]
  exact hc node files hk

/-! ### The steps -/

/-- A series that is written has a file then, and no other file comes or goes. -/
private theorem contains_written (h : History) (key : SeriesKey) (minute : ℤ) (p : Point) (k : NodeId × JsString) :
    (h.onDisk digest key (RingFile.minuteWrites f32 (h.files.get? (fileKey digest key)) (shapeOf key.2) minute p)).files.contains k =
      (decide (k = fileKey digest key) || h.files.contains k) := by
  obtain ⟨-, -, -, hfiles⟩ := h.onDisk_spec digest key
    (RingFile.minuteWrites f32 (h.files.get? (fileKey digest key)) (shapeOf key.2) minute p)
  rw [OMap.contains, hfiles]
  by_cases hk : k = fileKey digest key
  · rw [if_pos hk, decide_eq_true hk, Bool.true_or, Option.isSome_iff_ne_none, hk]
    cases hf : h.files.get? (fileKey digest key) with
    | some f => exact RingFile.writeAll_ne_none f _
    | none => exact RingFile.writeAll_ne_none (.fresh (shapeOf key.2)) _
  · rw [if_neg hk, decide_eq_false hk, Bool.false_or]
    rfl

/-- The names in memory are exact, and no node has more files than the cap. -/
structure Sound (maxSeries : ℕ) (c : Cached) : Prop where
  exact : c.Exact
  capped : ∀ node, (c.history.ringFiles node).length ≤ maxSeries

theorem sound_empty (maxSeries : ℕ) : empty.Sound maxSeries := ⟨exact_empty, fun _ => Nat.zero_le _⟩

/-- The files of a node are at most as many when none is new. -/
private theorem length_ringFiles_le {h' : History} {node : NodeId} {files : List JsString}
    (hfiles : ∀ f, h'.files.contains (node, f) = true → f ∈ files) : (h'.ringFiles node).length ≤ files.length :=
  ((h'.nodup_ringFiles node).subperm fun f hf => hfiles f (mem_ringFiles.1 hf)).length_le

theorem Sound.reading (hc : c.Sound maxSeries) (node : NodeId) : (c.reading node).Sound maxSeries :=
  ⟨hc.exact.reading node, hc.capped⟩

theorem Sound.congr (hc : c.Sound maxSeries) {h : History} (hfiles : h.files = c.history.files) :
    Sound maxSeries { c with history := h } := by
  refine ⟨hc.exact.congr hfiles, fun node => ?_⟩
  have hle : (h.ringFiles node).length ≤ (c.history.ringFiles node).length := length_ringFiles_le fun f hf => by
    rwa [mem_ringFiles, ← hfiles]
  exact hle.trans (hc.capped node)

private theorem close_of_taken {key : SeriesKey} (h : c.admits digest maxSeries key = true) (cur : Cur) :
    c.close f32 digest maxSeries key cur =
      { history := c.history.onDisk digest key
          (RingFile.minuteWrites f32 (c.history.files.get? (fileKey digest key)) (shapeOf key.2) cur.minute cur.point)
        known := c.known.set key.1 ((c.namesOf key.1).insert (fileOf digest key.2)) } := if_pos h

private theorem close_of_refused {key : SeriesKey} (h : c.admits digest maxSeries key = false) (cur : Cur) :
    c.close f32 digest maxSeries key cur = c.reading key.1 := if_neg (by rw [h]; exact Bool.false_ne_true)

private theorem Exact.contains_of_refused (hc : c.Exact) {key : SeriesKey} (h : c.admits digest maxSeries key = false) :
    c.history.files.contains (fileKey digest key) = false ∧ maxSeries ≤ (c.history.ringFiles key.1).length := by
  rw [Cached.admits, Bool.or_eq_false_iff, decide_eq_false_iff_not, not_lt, hc.length_namesOf] at h
  refine ⟨?_, h.2⟩
  rw [← Bool.not_eq_true] at h ⊢
  rw [List.contains_iff_mem, (hc.namesOf key.1).2] at h
  exact h.1

private theorem Exact.history_close (hc : c.Exact) (key : SeriesKey) (cur : Cur) :
    (c.close f32 digest maxSeries key cur).history = c.history.close f32 digest maxSeries key cur := by
  rw [History.close, History.writes, ← hc.admits]
  cases had : c.admits digest maxSeries key with
  | true =>
    rw [close_of_taken had, if_pos rfl]
  | false =>
    have hnone : c.history.files.get? (fileKey digest key) = none := by
      have hcontains := (hc.contains_of_refused had).1
      rwa [OMap.contains, Option.isSome_eq_false_iff, Option.isNone_iff_eq_none] at hcontains
    rw [close_of_refused had, if_neg Bool.false_ne_true, History.onDisk, hnone]
    rfl

theorem Sound.close (hc : c.Sound maxSeries) (key : SeriesKey) (cur : Cur) :
    (c.close f32 digest maxSeries key cur).Sound maxSeries := by
  cases had : c.admits digest maxSeries key with
  | false =>
    rw [close_of_refused had]
    exact hc.reading key.1
  | true =>
    rw [close_of_taken had]
    obtain ⟨hnodup, hmem⟩ := hc.exact.namesOf key.1
    refine ⟨Exact.set (fun n fs hn hfs => ?_) hnodup.insert fun f => ?_, fun node => ?_⟩
    · refine ⟨(hc.exact n fs hfs).1, fun f => ?_⟩
      rw [contains_written, decide_eq_false fun heq => hn (congrArg Prod.fst heq), Bool.false_or]
      exact (hc.exact n fs hfs).2 f
    · rw [List.mem_insert_iff, contains_written, Bool.or_eq_true, decide_eq_true_eq, hmem, fileKey, Prod.mk.injEq]
      exact or_congr_left (by simp)
    · dsimp only
      by_cases hnode : node = key.1
      · -- a new file only below the cap
        rw [hnode]
        rw [Cached.admits, Bool.or_eq_true, List.contains_iff_mem, decide_eq_true_eq, hc.exact.length_namesOf, hmem] at had
        rcases had with had | had
        · refine (length_ringFiles_le fun f hf => ?_).trans (hc.capped key.1)
          rw [contains_written, Bool.or_eq_true, decide_eq_true_eq, fileKey, Prod.mk.injEq] at hf
          rcases hf with ⟨-, rfl⟩ | hf
          · exact mem_ringFiles.2 had
          · exact mem_ringFiles.2 hf
        · have hle : ((c.history.onDisk digest key (RingFile.minuteWrites f32 (c.history.files.get? (fileKey digest key))
              (shapeOf key.2) cur.minute cur.point)).ringFiles key.1).length ≤
                (fileOf digest key.2 :: c.history.ringFiles key.1).length := by
            refine length_ringFiles_le fun f hf => ?_
            rw [contains_written, Bool.or_eq_true, decide_eq_true_eq, fileKey, Prod.mk.injEq] at hf
            rw [List.mem_cons]
            exact hf.imp And.right mem_ringFiles.2
          rw [List.length_cons] at hle
          omega
      · refine (length_ringFiles_le fun f hf => ?_).trans (hc.capped node)
        rw [contains_written, decide_eq_false fun heq => hnode (congrArg Prod.fst heq), Bool.false_or] at hf
        exact mem_ringFiles.2 hf

private theorem Sound.openMinute (hc : c.Sound maxSeries) (key : SeriesKey) (minute : ℤ) (v : ℚ) :
    (c.openMinute digest maxSeries key minute v).Sound maxSeries := by
  unfold Cached.openMinute
  split
  · exact (hc.reading key.1).congr rfl
  · exact hc.reading key.1

theorem Sound.addOne (hc : c.Sound maxSeries) (key : SeriesKey) (v : ℚ) (t : ℕ) :
    (c.addOne f32 digest maxSeries key v t).Sound maxSeries := by
  have hadded : Sound maxSeries { c with history := { c.history with added := c.history.added ++ [⟨key, t / History.MIN, v⟩] } } :=
    hc.congr rfl
  unfold Cached.addOne
  dsimp only
  split
  · split
    · exact hc.congr rfl
    · exact (hadded.close key _).openMinute key _ v
  · exact hadded.openMinute key _ v

theorem Sound.addEntry (hc : c.Sound maxSeries) (node : NodeId) (t : ℕ) (e : JsString × Option ℚ) :
    (addEntry f32 digest maxSeries node t c e).Sound maxSeries := by
  unfold Cached.addEntry
  split
  · exact hc.addOne _ _ t
  · exact hc

theorem Sound.flushOne (hc : c.Sound maxSeries) (t : ℕ) (e : SeriesKey × Cur) :
    (flushOne f32 digest maxSeries t c e).Sound maxSeries := by
  unfold Cached.flushOne
  dsimp only
  split
  · exact (hc.close e.1 e.2).congr rfl
  · exact hc.close e.1 e.2

theorem Sound.foldl {ε : Type*} {g : Cached → ε → Cached} (hstep : ∀ c e, Sound maxSeries c → (g c e).Sound maxSeries)
    (hc : c.Sound maxSeries) (es : List ε) : (es.foldl g c).Sound maxSeries := by
  induction es generalizing c with
  | nil => exact hc
  | cons e es ih => exact ih (hstep c e hc)

theorem Sound.restart (hc : c.Sound maxSeries) : c.restart.Sound maxSeries :=
  ⟨fun _ _ h => (by cases h), hc.capped⟩

private theorem contains_without (h : History) (nodes : NodeId → Bool) (files : NodeId × JsString → Bool)
    (k : NodeId × JsString) :
    (h.without nodes files).files.contains k = (h.files.contains k && !files k) := by
  rw [OMap.contains, History.without, OMap.get?_filter, OMap.contains]
  cases h.files.get? k with
  | none => rfl
  | some f => cases files k <;> simp

/-- Fewer files are fewer of each node. -/
private theorem length_ringFiles_without (h : History) (nodes : NodeId → Bool) (files : NodeId × JsString → Bool)
    (node : NodeId) :
    ((h.without nodes files).ringFiles node).length ≤ (h.ringFiles node).length := by
  refine length_ringFiles_le fun f hf => ?_
  rw [contains_without, Bool.and_eq_true] at hf
  exact mem_ringFiles.2 hf.1

theorem Sound.remove (hc : c.Sound maxSeries) (node : NodeId) : (c.remove node).Sound maxSeries := by
  refine ⟨fun n fs hfs => ?_, fun n => (length_ringFiles_without _ _ _ n).trans (hc.capped n)⟩
  unfold Cached.remove at hfs ⊢
  dsimp only at hfs ⊢
  rw [OMap.get?_erase] at hfs
  split at hfs
  · cases hfs
  · rename_i hn
    refine ⟨(hc.exact n fs hfs).1, fun f => ?_⟩
    rw [contains_without, decide_eq_false hn, Bool.not_false, Bool.and_true]
    exact (hc.exact n fs hfs).2 f

theorem get?_forget (known : OMap NodeId (List JsString)) (k : NodeId × JsString) (n : NodeId) :
    (forget known k).get? n = if n = k.1 then (known.get? n).map fun files => files.erase k.2 else known.get? n := by
  unfold forget
  cases hk : known.get? k.1 with
  | none =>
    by_cases hn : n = k.1
    · rw [if_pos hn, hn, hk]
      rfl
    · rw [if_neg hn]
  | some files =>
    dsimp only
    rw [OMap.get?_set]
    by_cases hn : n = k.1
    · rw [if_pos hn, if_pos hn, hn, hk]
      rfl
    · rw [if_neg hn, if_neg hn]

/-- The names in memory without those of files that were removed. -/
private theorem foldl_forget (ks : List (NodeId × JsString)) {known : OMap NodeId (List JsString)} {n : NodeId}
    {fs' : List JsString}
    (h : (ks.foldl forget known).get? n = some fs') :
    ∃ fs, known.get? n = some fs ∧ (fs.Nodup → fs'.Nodup ∧ ∀ f, f ∈ fs' ↔ f ∈ fs ∧ (n, f) ∉ ks) := by
  induction ks generalizing known with
  | nil => exact ⟨fs', h, fun hnodup => ⟨hnodup, fun f => by simp⟩⟩
  | cons k ks ih =>
    obtain ⟨fs, hfs, hrest⟩ := ih h
    rw [get?_forget] at hfs
    by_cases hn : n = k.1
    · rw [if_pos hn] at hfs
      obtain ⟨gs, hgs, rfl⟩ := Option.map_eq_some_iff.1 hfs
      refine ⟨gs, hgs, fun hnodup => ?_⟩
      obtain ⟨hnodup', hmem⟩ := hrest (hnodup.erase _)
      refine ⟨hnodup', fun f => ?_⟩
      rw [hmem, hnodup.mem_erase_iff, List.mem_cons, not_or, hn]
      have hkey : (k.1, f) = k ↔ f = k.2 := ⟨fun heq => congrArg Prod.snd heq, fun heq => Prod.ext rfl heq⟩
      rw [hkey]
      exact ⟨fun ⟨⟨hne, hf⟩, hks⟩ => ⟨hf, hne, hks⟩, fun ⟨hf, hne, hks⟩ => ⟨⟨hne, hf⟩, hks⟩⟩
    · rw [if_neg hn] at hfs
      refine ⟨fs, hfs, fun hnodup => ⟨(hrest hnodup).1, fun f => ?_⟩⟩
      have hkey : (n, f) ≠ k := fun heq => hn (congrArg Prod.fst heq)
      rw [(hrest hnodup).2, List.mem_cons, not_or]
      exact ⟨fun ⟨hf, hks⟩ => ⟨hf, hkey, hks⟩, fun ⟨hf, _, hks⟩ => ⟨hf, hks⟩⟩

theorem Sound.sweep (hc : c.Sound maxSeries) (alive : Option (List NodeId)) (bare : List NodeId) (t : ℕ) :
    (c.sweep alive bare t).Sound maxSeries := by
  refine ⟨fun n fs hfs => ?_, fun n => (length_ringFiles_without _ _ _ n).trans (hc.capped n)⟩
  unfold Cached.sweep at hfs ⊢
  dsimp only at hfs ⊢
  obtain ⟨gs, hgs, hrest⟩ := foldl_forget _ hfs
  rw [OMap.get?_filter, Option.filter_eq_some_iff] at hgs
  obtain ⟨hnodup, hmem⟩ := hc.exact n gs hgs.1
  refine ⟨(hrest hnodup).1, fun f => ?_⟩
  rw [(hrest hnodup).2, hmem, contains_without, Bool.and_eq_true, List.mem_filter, OMap.mem_keys_iff, ← OMap.contains_iff,
    not_and, Bool.not_eq_true, Bool.not_eq_true']
  exact ⟨fun ⟨hf, hno⟩ => ⟨hf, hno hf⟩, fun ⟨hf, hno⟩ => ⟨hf, fun _ => hno⟩⟩

theorem Sound.step (hc : c.Sound maxSeries) (s : ℕ × Call) : (c.step f32 digest maxSeries s).Sound maxSeries := by
  have heffect : (c.effect f32 digest maxSeries s.1 s.2).Sound maxSeries := by
    cases s.2 with
    | add node values => exact hc.foldl (fun _ e h => h.addEntry node s.1 e) _
    | flush => exact hc.foldl (fun _ e h => h.flushOne s.1 e) _
    | restart => exact hc.restart
    | remove node => exact hc.remove node
    | sweep alive bare => exact hc.sweep alive bare s.1
  exact heffect.congr rfl

private theorem Sound.during (hc : c.Sound maxSeries) (t place : ℕ) (call : Call) :
    (c.during f32 digest maxSeries t place call).Sound maxSeries := by
  cases call with
  | add node values => exact hc.foldl (fun _ e h => h.addEntry node t e) _
  | flush => exact hc.foldl (fun _ e h => h.flushOne t e) _
  | restart => exact hc
  | remove node => exact hc
  | sweep alive bare => exact hc

theorem sound_run (steps : List (ℕ × Call)) : (Runs.run (step f32 digest maxSeries) empty steps).Sound maxSeries :=
  Runs.invariant (fun _ s h => h.step s) (sound_empty maxSeries) steps

/-! ### The history without the memory -/

private theorem Exact.history_openMinute (hc : c.Exact) (key : SeriesKey) (minute : ℤ) (v : ℚ) :
    (c.openMinute digest maxSeries key minute v).history =
      if c.history.admits digest maxSeries key then
        { c.history with opened := c.history.opened.set key (.first minute v) } else c.history := by
  rw [← hc.admits]
  unfold Cached.openMinute
  split <;> rfl

private theorem Sound.history_addOne (hc : c.Sound maxSeries) (key : SeriesKey) (v : ℚ) (t : ℕ) :
    (c.addOne f32 digest maxSeries key v t).history = c.history.addOne f32 digest maxSeries key v t := by
  have hadded : Sound maxSeries { c with history := { c.history with added := c.history.added ++ [⟨key, t / History.MIN, v⟩] } } :=
    hc.congr rfl
  unfold Cached.addOne History.addOne
  dsimp only
  cases c.history.opened.get? key with
  | none => exact hadded.exact.history_openMinute key _ v
  | some cur =>
    dsimp only
    by_cases hminute : cur.minute = t / History.MIN
    · rw [if_pos hminute, if_pos hminute]
    · rw [if_neg hminute, if_neg hminute, (hadded.close key cur).exact.history_openMinute, hadded.exact.history_close]

private theorem Sound.history_addEntry (hc : c.Sound maxSeries) (node : NodeId) (t : ℕ) (e : JsString × Option ℚ) :
    (Cached.addEntry f32 digest maxSeries node t c e).history = c.history.addEntry f32 digest maxSeries node t e := by
  unfold Cached.addEntry History.addEntry
  cases e.2 with
  | none => rfl
  | some v => exact hc.history_addOne _ v t

private theorem Sound.history_flushOne (hc : c.Sound maxSeries) (t : ℕ) (e : SeriesKey × Cur) :
    (Cached.flushOne f32 digest maxSeries t c e).history = History.flushOne f32 digest maxSeries t c.history e := by
  unfold Cached.flushOne History.flushOne
  dsimp only
  rw [← hc.exact.history_close]
  by_cases hminute : e.2.minute < t / History.MIN
  · rw [if_pos hminute, if_pos hminute]
  · rw [if_neg hminute, if_neg hminute]

theorem Sound.history_foldl {ε : Type*} {g : Cached → ε → Cached} {g' : History → ε → History}
    (hsound : ∀ c e, Sound maxSeries c → (g c e).Sound maxSeries)
    (hstep : ∀ c e, Sound maxSeries c → (g c e).history = g' c.history e) (hc : c.Sound maxSeries) (es : List ε) :
    (es.foldl g c).history = es.foldl g' c.history := by
  induction es generalizing c with
  | nil => rfl
  | cons e es ih => rw [List.foldl_cons, List.foldl_cons, ih (hsound c e hc), hstep c e hc]

/-- The steps are those of the history that reads the directory each time. -/
theorem Sound.history_step (hc : c.Sound maxSeries) {r : Named} (hr : c.history = r.history) (s : ℕ × Call) :
    (c.step f32 digest maxSeries s).history = (r.step f32 digest maxSeries ⟨s.1, s.2.op⟩).history := by
  obtain ⟨t, call⟩ := s
  cases call with
  | add node values =>
    rw [Call.op, Named.history_step, ← hr]
    have hadd : (c.add f32 digest maxSeries node values t).history = c.history.add f32 digest maxSeries node values t :=
      hc.history_foldl (fun _ e h => h.addEntry node t e) (fun _ e h => h.history_addEntry node t e) _
    unfold Cached.step History.step
    exact congrArg (fun h : History => { h with clock := t }) hadd
  | flush =>
    rw [Call.op, Named.history_step, ← hr]
    have hflush : (c.flush f32 digest maxSeries t).history = c.history.flush f32 digest maxSeries t :=
      hc.history_foldl (fun _ e h => h.flushOne t e) (fun _ e h => h.history_flushOne t e) _
    unfold Cached.step History.step
    exact congrArg (fun h : History => { h with clock := t }) hflush
  | restart =>
    rw [Call.op, Named.history_step, ← hr]
    rfl
  | remove node =>
    unfold Cached.step Named.step
    rw [Call.op, Named.effect, Named.remove, Named.without, ← hr]
    rfl
  | sweep alive bare =>
    unfold Cached.step Named.step
    rw [Call.op, Named.effect, Named.sweep, Named.without, ← hr]
    rfl

/-- So every result about the history is one about the history with its memory. -/
theorem history_run (steps : List (ℕ × Call)) :
    (Runs.run (step f32 digest maxSeries) empty steps).history =
      (Runs.run (Named.step f32 digest maxSeries) Named.empty (steps.map fun s => ⟨s.1, s.2.op⟩)).history := by
  induction steps using List.reverseRecOn with
  | nil => rfl
  | append_singleton steps s ih =>
    rw [Runs.run_snoc, List.map_append, List.map_singleton, Runs.run_snoc]
    exact (sound_run steps).history_step ih s

/-! ### The cap -/

end Cached

/-- The minute in progress with another value: of the same minute, or of a later one. -/
def Cur.next (cur : Option Cur) (minute : ℤ) (v : ℚ) : Cur :=
  match cur with
  | some cur => if cur.minute = minute then cur.push v else .first minute v
  | none => .first minute v

namespace Cached

open History

section

variable (f32 : ℚ → ℚ) (digest : JsString → JsString) (maxSeries : ℕ)

/-- What the cap does in a state: a node has no more files than it, a series with a file is written and opened, and one
that is refused has no file and its node as many as the cap. -/
structure CapRefusesNew (c : Cached) : Prop where
  capped : ∀ node, (c.history.ringFiles node).length ≤ maxSeries
  written : ∀ key cur, c.history.files.contains (fileKey digest key) = true →
    (c.close f32 digest maxSeries key cur).history = c.history.onDisk digest key
      (RingFile.minuteWrites f32 (c.history.files.get? (fileKey digest key)) (shapeOf key.2) cur.minute cur.point)
  counted : ∀ key v t, c.history.files.contains (fileKey digest key) = true →
    (c.addOne f32 digest maxSeries key v t).history.opened.get? key =
      some (Cur.next (c.history.opened.get? key) (t / History.MIN) v)
  refused : ∀ key, c.admits digest maxSeries key = false →
    c.history.files.contains (fileKey digest key) = false ∧ (c.history.ringFiles key.1).length = maxSeries

/-- Does the call take the file away? -/
def drops (h : History) (s : ℕ × Call) (k : NodeId × JsString) : Bool :=
  match s.2 with
  | .remove node => k.1 = node
  | .sweep alive bare => h.sweptFile alive bare s.1 k
  | _ => false

end

variable {f32 : ℚ → ℚ} {digest : JsString → JsString} {maxSeries : ℕ} {c : Cached}

private theorem Exact.taken_of_contains (hc : c.Exact) {key : SeriesKey}
    (h : c.history.files.contains (fileKey digest key) = true) :
    c.admits digest maxSeries key = true := by
  rw [hc.admits, History.admits, h, Bool.true_or]

private theorem opened_openMinute {key : SeriesKey} (h : c.admits digest maxSeries key = true) (minute : ℤ) (v : ℚ) :
    (c.openMinute digest maxSeries key minute v).history.opened.get? key = some (.first minute v) := by
  unfold openMinute
  rw [if_pos h]
  exact OMap.get?_set_self _ _ _

private theorem Sound.capRefusesNew (hc : c.Sound maxSeries) : c.CapRefusesNew f32 digest maxSeries where
  capped := hc.capped
  written key cur h := by rw [close_of_taken (hc.exact.taken_of_contains h)]
  counted key v t h := by
    have hadded : Sound maxSeries { c with history := { c.history with added := c.history.added ++ [⟨key, t / History.MIN, v⟩] } } :=
      hc.congr rfl
    have htaken : Cached.admits digest maxSeries _ key = true := hadded.exact.taken_of_contains h
    unfold Cached.addOne Cur.next
    dsimp only
    cases c.history.opened.get? key with
    | none => exact opened_openMinute htaken _ v
    | some cur =>
      dsimp only
      by_cases hminute : cur.minute = t / History.MIN
      · rw [if_pos hminute, if_pos hminute]
        exact OMap.get?_set_self _ _ _
      · rw [if_neg hminute, if_neg hminute]
        refine opened_openMinute ((hadded.close key cur).exact.taken_of_contains ?_) _ v
        rw [close_of_taken htaken]
        rw [contains_written]
        exact Bool.or_eq_true_iff.2 (Or.inr h)
  refused key h := by
    obtain ⟨hno, hle⟩ := hc.exact.contains_of_refused h
    exact ⟨hno, le_antisymm (hc.capped key.1) hle⟩

/-- Closing a minute takes no file away. -/
private theorem contains_close {k : NodeId × JsString} (h : c.history.files.contains k = true) (key : SeriesKey)
    (cur : Cur) :
    (c.close f32 digest maxSeries key cur).history.files.contains k = true := by
  unfold close
  split
  · rw [contains_written]
    exact Bool.or_eq_true_iff.2 (Or.inr h)
  · exact h

private theorem contains_openMinute {k : NodeId × JsString} (h : c.history.files.contains k = true) (key : SeriesKey)
    (minute : ℤ)
    (v : ℚ) : (c.openMinute digest maxSeries key minute v).history.files.contains k = true := by
  unfold openMinute
  split <;> exact h

private theorem contains_addOne {k : NodeId × JsString} (h : c.history.files.contains k = true) (key : SeriesKey)
    (v : ℚ) (t : ℕ) :
    (c.addOne f32 digest maxSeries key v t).history.files.contains k = true := by
  have hadded : (Cached.mk { c.history with added := c.history.added ++ [⟨key, t / History.MIN, v⟩] } c.known).history.files.contains k =
    true := h
  unfold Cached.addOne
  dsimp only
  cases c.history.opened.get? key with
  | none => exact contains_openMinute hadded key _ v
  | some cur =>
    dsimp only
    by_cases hminute : cur.minute = t / History.MIN
    · rw [if_pos hminute]
      exact h
    · rw [if_neg hminute]
      exact contains_openMinute (contains_close hadded key cur) key _ v

private theorem contains_addEntry {k : NodeId × JsString} (h : c.history.files.contains k = true) (node : NodeId)
    (t : ℕ)
    (e : JsString × Option ℚ) : (addEntry f32 digest maxSeries node t c e).history.files.contains k = true := by
  unfold Cached.addEntry
  split
  · exact contains_addOne h _ _ t
  · exact h

private theorem contains_flushOne {k : NodeId × JsString} (h : c.history.files.contains k = true) (t : ℕ)
    (e : SeriesKey × Cur) :
    (flushOne f32 digest maxSeries t c e).history.files.contains k = true := by
  unfold flushOne
  dsimp only
  split <;> exact contains_close h _ _

private theorem contains_foldl {ε : Type*} {g : Cached → ε → Cached} {k : NodeId × JsString}
    (hstep : ∀ c e, c.history.files.contains k = true → (g c e).history.files.contains k = true)
    (h : c.history.files.contains k = true) (es : List ε) : (es.foldl g c).history.files.contains k = true := by
  induction es generalizing c with
  | nil => exact h
  | cons e es ih => exact ih (hstep c e h)

/-- A file stays unless its node is removed or it is swept. -/
private theorem contains_step {k : NodeId × JsString} (h : c.history.files.contains k = true) (s : ℕ × Call) :
    (c.step f32 digest maxSeries s).history.files.contains k = !drops c.history s k := by
  obtain ⟨t, call⟩ := s
  cases call with
  | add node values => exact contains_foldl (fun _ e h => contains_addEntry h node t e) h _
  | flush => exact contains_foldl (fun _ e h => contains_flushOne h t e) h _
  | restart => exact h
  | remove node =>
    have hkept := contains_without c.history (fun n => n = node) (fun k => k.1 = node) k
    rw [h, Bool.true_and] at hkept
    exact hkept
  | sweep alive bare =>
    have hkept := contains_without c.history (c.history.sweptNode alive bare) (c.history.sweptFile alive bare t) k
    rw [h, Bool.true_and] at hkept
    exact hkept

/-- In every state of a run, in the middle of its calls too, the cap refuses new names only. -/
theorem cap_only_refuses_new (f32 : ℚ → ℚ) (digest : JsString → JsString) (maxSeries : ℕ) (steps : List (ℕ × Call)) :
    (∀ t place call, CapRefusesNew f32 digest maxSeries
      ((Runs.run (step f32 digest maxSeries) empty steps).during f32 digest maxSeries t place call)) ∧
      ∀ s k, (Runs.run (step f32 digest maxSeries) empty steps).history.files.contains k = true →
        (Runs.run (step f32 digest maxSeries) empty (steps ++ [s])).history.files.contains k =
          !drops (Runs.run (step f32 digest maxSeries) empty steps).history s k := by
  refine ⟨fun t place call => ((sound_run steps).during t place call).capRefusesNew, fun s k hk => ?_⟩
  rw [Runs.run_snoc]
  exact contains_step hk s

end Cached

end Servitals
