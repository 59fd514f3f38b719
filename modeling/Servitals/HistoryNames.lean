import Servitals.FileNames
import Servitals.HistoryRings

/-!
# The names beside the files

The history with what a listing reads: the `.name` files of hashed names, and as a history variable the series that were
written and are not gone.  A node's history is removed with the node, and a series no data reached for 90 days is swept.
`series` lists the names of the files and of the open minutes.

When no two names of a run have one hash, each file is of one series that was written (`Kept`), so a listing gives
exactly the names written or open (`Kept.series`).
-/

namespace Servitals

/-- Does the write put a fresh file in place? -/
def FileWrite.isCreate : FileWrite → Bool
  | .create _ => true
  | .ring _ _ => false

namespace History

section

variable (f32 : ℚ → ℚ) (digest : JsString → JsString) (maxSeries : ℕ)

/-- The writes of an entry of an `add`: those that close the minute before. -/
def entryWrites (node : NodeId) (t : ℕ) (h : History) (e : JsString × Option ℚ) : List FileWrite :=
  match e.2, h.opened.get? (node, e.1) with
  | some _, some cur => if cur.minute = t / MIN then [] else h.writes f32 digest maxSeries (node, e.1) cur
  | _, _ => []

end

/-- The history without the open minutes of some nodes, and without some files. -/
def without (h : History) (nodes : NodeId → Bool) (files : NodeId × JsString → Bool) : History :=
  { h with opened := h.opened.filter fun k _ => !nodes k.1, files := h.files.filter fun k _ => !files k }

/-- `SWEEP_MIN`: 90 days. -/
def SWEEP_MIN : ℤ := 90 * 1440

/-- A node's directory that a sweep removes: it is there, and its node is not among those that are known.  The
directories without a ring file are given. -/
def sweptNode (h : History) (alive : Option (List NodeId)) (bare : List NodeId) (node : NodeId) : Bool :=
  (alive.any fun ids => !ids.contains node) && (bare.contains node || h.files.keys.any fun k => k.1 = node)

/-- A file that a sweep removes. -/
def sweptFile (h : History) (alive : Option (List NodeId)) (bare : List NodeId) (t : ℕ) (k : NodeId × JsString) : Bool :=
  h.sweptNode alive bare k.1 || (h.files.get? k).any fun f => SWEEP_MIN < t / MIN - (f.rings .minute).last

end History

/-- The history, the names kept beside hashed files, and the series written that are not gone. -/
structure Named where
  history : History
  names : OMap (NodeId × JsString) JsString
  written : List SeriesKey

namespace Named

open History

/-- The history over an empty directory. -/
def empty : Named := ⟨.empty, .empty, []⟩

section

variable (f32 : ℚ → ℚ) (digest : JsString → JsString) (maxSeries : ℕ)

/-- After writes to a series' file: a fresh file of a hashed name has the name beside it. -/
def note (r : Named) (key : SeriesKey) (ws : List FileWrite) (h : History) : Named where
  history := h
  names :=
    if hashed (fileOf digest key.2) && ws.any FileWrite.isCreate then r.names.set (fileKey digest key) key.2 else r.names
  written := if ws.isEmpty then r.written else key :: r.written

def addEntry (node : NodeId) (t : ℕ) (r : Named) (e : JsString × Option ℚ) : Named :=
  r.note digest (node, e.1) (r.history.entryWrites f32 digest maxSeries node t e)
    (History.addEntry f32 digest maxSeries node t r.history e)

def add (r : Named) (node : NodeId) (values : OMap JsString (Option ℚ)) (t : ℕ) : Named :=
  values.entries.foldl (addEntry f32 digest maxSeries node t) r

def flushOne (t : ℕ) (r : Named) (e : SeriesKey × Cur) : Named :=
  r.note digest e.1 (r.history.writes f32 digest maxSeries e.1 e.2) (History.flushOne f32 digest maxSeries t r.history e)

def flush (r : Named) (t : ℕ) : Named := r.history.opened.entries.foldl (flushOne f32 digest maxSeries t) r

def restart (r : Named) : Named := { r with history := r.history.restart }

def cutClose (r : Named) (key : SeriesKey) (c : Cur) (k : ℕ) : Named :=
  r.note digest key ((r.history.writes f32 digest maxSeries key c).take k)
    (r.history.cutClose f32 digest maxSeries key c k)

def cutAdd (r : Named) (node : NodeId) (values : OMap JsString (Option ℚ)) (place k : ℕ) (t : ℕ) : Named :=
  let r := (values.entries.take place).foldl (addEntry f32 digest maxSeries node t) r
  match values.entries[place]? with
  | some (name, some _) => match r.history.opened.get? (node, name) with
    | some cur => if cur.minute = t / History.MIN then r.restart else r.cutClose f32 digest maxSeries (node, name) cur k
    | none => r.restart
  | _ => r.restart

def cutFlush (r : Named) (place k : ℕ) (t : ℕ) : Named :=
  let r' := (r.history.opened.entries.take place).foldl (flushOne f32 digest maxSeries t) r
  match r.history.opened.entries[place]? with
  | some (key, cur) => r'.cutClose f32 digest maxSeries key cur k
  | none => r'.restart

/-- The history without the open minutes of some nodes, and without some files and the names beside them. -/
def without (r : Named) (nodes : NodeId → Bool) (files : NodeId × JsString → Bool) : Named where
  history := r.history.without nodes files
  names := r.names.filter fun k _ => !files k
  written := r.written.filter fun key => !files (fileKey digest key)

/-- `remove` -/
def remove (r : Named) (node : NodeId) : Named := r.without digest (fun n => n = node) fun k => k.1 = node

/-- `sweep` -/
def sweep (r : Named) (alive : Option (List NodeId)) (bare : List NodeId) (t : ℕ) : Named :=
  r.without digest (r.history.sweptNode alive bare) (r.history.sweptFile alive bare t)

end

/-- A step: one of the history, or a node's history is removed, or what is silent or unknown is swept. -/
inductive Op
  | call (op : HistoryOp)
  | remove (node : NodeId)
  | sweep (alive : Option (List NodeId)) (bare : List NodeId)

/-- A step at a time of the clock. -/
structure Step where
  time : ℕ
  op : Op

section

variable (f32 : ℚ → ℚ) (digest : JsString → JsString) (maxSeries : ℕ)

def effect (r : Named) (t : ℕ) : Op → Named
  | .call (.add node values) => r.add f32 digest maxSeries node values t
  | .call .flush => r.flush f32 digest maxSeries t
  | .call .restart => r.restart
  | .call (.cutAdd node values place k) => r.cutAdd f32 digest maxSeries node values place k t
  | .call (.cutFlush place k) => r.cutFlush f32 digest maxSeries place k t
  | .remove node => r.remove digest node
  | .sweep alive bare => r.sweep digest alive bare t

def step (r : Named) (s : Step) : Named :=
  let r := r.effect f32 digest maxSeries s.time s.op
  { r with history := { r.history with clock := s.time } }

end

/-- What a listing reads of a ring file: none when decoding throws, and no name for a hashed file without one. -/
def listed (r : Named) (k : NodeId × JsString) : Option (Option JsString) :=
  if hashed k.2 then some (r.names.get? k) else (decodeURIComponent (k.2.rdrop 5)).map some

/-- `series`, none when it throws. -/
def series (r : Named) (node : NodeId) : Option (List JsString) :=
  ((r.history.files.keys.filter fun k => k.1 = node).mapM r.listed).map fun names =>
    (names.reduceOption ++ (r.history.opened.keys.filter fun k => k.1 = node).map Prod.snd).eraseDups

/-! ### The history itself -/

section

variable (f32 : ℚ → ℚ) (digest : JsString → JsString) (maxSeries : ℕ)

private theorem history_foldl {ε : Type*} {g : Named → ε → Named} {g' : History → ε → History}
    (hstep : ∀ r e, (g r e).history = g' r.history e) (es : List ε) (r : Named) :
    (es.foldl g r).history = es.foldl g' r.history := by
  induction es generalizing r with
  | nil => rfl
  | cons e es ih => rw [List.foldl_cons, List.foldl_cons, ih, hstep]

/-- The steps of the history are those of the history without names. -/
theorem history_step (r : Named) (t : ℕ) (op : HistoryOp) :
    (r.step f32 digest maxSeries ⟨t, .call op⟩).history = r.history.step f32 digest maxSeries ⟨t, op⟩ := by
  suffices h : (r.effect f32 digest maxSeries t (.call op)).history = r.history.effect f32 digest maxSeries t op by
    unfold step History.step
    rw [← h]
  have hadd : ∀ (node : NodeId) (es : List (JsString × Option ℚ)), (es.foldl (addEntry f32 digest maxSeries node t) r).history =
      es.foldl (History.addEntry f32 digest maxSeries node t) r.history :=
    fun node es => history_foldl (fun _ _ => rfl) es r
  have hflush : ∀ es : List (SeriesKey × Cur), (es.foldl (flushOne f32 digest maxSeries t) r).history =
      es.foldl (History.flushOne f32 digest maxSeries t) r.history :=
    fun es => history_foldl (fun _ _ => rfl) es r
  cases op with
  | add node values => exact hadd node _
  | flush => exact hflush _
  | restart => rfl
  | cutAdd node values place k =>
    unfold effect History.effect cutAdd History.cutAdd
    dsimp only
    rw [← hadd]
    generalize values.entries[place]? = e
    obtain _ | ⟨name, _ | v⟩ := e
    · rfl
    · rfl
    · dsimp only
      generalize (List.foldl _ r _).history.opened.get? (node, name) = c
      cases c with
      | none => rfl
      | some c =>
        by_cases hsame : c.minute = t / History.MIN
        · dsimp only
          rw [if_pos hsame, if_pos hsame]
          rfl
        · dsimp only
          rw [if_neg hsame, if_neg hsame]
          rfl
  | cutFlush place k =>
    unfold effect History.effect cutFlush History.cutFlush
    dsimp only
    rw [← hflush]
    generalize r.history.opened.entries[place]? = e
    cases e <;> rfl

end

/-! ### What a listing gives -/

/-- The names that a step gives are among some. -/
def Step.Gives (K : Set JsString) (s : Step) : Prop :=
  match s.op with
  | .call (.add _ values) | .call (.cutAdd _ values _ _) => ∀ e ∈ values.entries, e.1 ∈ K
  | _ => True

/-- Each file is of one series that was written, with its name beside it when it is hashed. -/
structure Kept (digest : JsString → JsString) (K : Set JsString) (r : Named) : Prop where
  opened : ∀ key c, r.history.opened.get? key = some c → key.2 ∈ K
  written : ∀ key ∈ r.written, key.2 ∈ K ∧ r.history.files.contains (fileKey digest key) = true
  files : ∀ k f, r.history.files.get? k = some f → ∃ key ∈ r.written, k = fileKey digest key
  names : ∀ key ∈ r.written, hashed (fileOf digest key.2) = true → r.names.get? (fileKey digest key) = some key.2

variable {f32 : ℚ → ℚ} {digest : JsString → JsString} {maxSeries : ℕ} {K : Set JsString} {r : Named}

theorem kept_empty (digest : JsString → JsString) (K : Set JsString) : Kept digest K empty where
  opened _ _ hc := by cases hc
  written _ hkey := by cases hkey
  files _ _ hf := by cases hf
  names _ hkey := by cases hkey

theorem fileKey_injOn (hfiles : Set.InjOn (fileOf digest) K) {key key' : SeriesKey} (hkey : key.2 ∈ K)
    (hkey' : key'.2 ∈ K) (h : fileKey digest key = fileKey digest key') : key = key' := by
  obtain ⟨hnode, hfile⟩ := Prod.mk.inj h
  exact Prod.ext hnode (hfiles hkey hkey' hfile)

/-- A file is where the first write makes it. -/
def Starts (f : Option RingFile) (ws : List FileWrite) : Prop := f = none → ws.isEmpty = false → ws.any FileWrite.isCreate = true

private theorem starts_nil (f : Option RingFile) : Starts f [] := fun _ h => by cases h

theorem Starts.take {f : Option RingFile} {ws : List FileWrite} (h : ∀ w ∈ ws.head?, f = none → w.isCreate = true) (k : ℕ) :
    Starts f (ws.take k) := by
  intro hf hne
  cases k with
  | zero => cases hne
  | succ k => cases ws with
    | nil => cases hne
    | cons w ws => rw [List.take_succ_cons, List.any_cons, h w rfl hf, Bool.true_or]

private theorem head_writes (h : History) (key : SeriesKey) (c : Cur) :
    ∀ w ∈ (h.writes f32 digest maxSeries key c).head?, h.files.get? (fileKey digest key) = none → w.isCreate = true := by
  intro w hw hnone
  unfold writes at hw
  split at hw
  · rw [hnone] at hw
    obtain rfl := Option.some.inj hw
    rfl
  · cases hw

private theorem starts_writes (h : History) (key : SeriesKey) (c : Cur) :
    Starts (h.files.get? (fileKey digest key)) (h.writes f32 digest maxSeries key c) := by
  have hstarts := Starts.take (@head_writes f32 digest maxSeries h key c) (h.writes f32 digest maxSeries key c).length
  rwa [List.take_length] at hstarts

/-- A file that was made is there. -/
private theorem writeAll_isSome {ws : List FileWrite} (h : ws.any FileWrite.isCreate = true) (f : Option RingFile) :
    (RingFile.writeAll f ws).isSome = true := by
  induction ws generalizing f with
  | nil => cases h
  | cons w ws ih =>
    rw [List.any_cons, Bool.or_eq_true] at h
    cases w with
    | create s => exact Option.isSome_iff_ne_none.2 (RingFile.writeAll_ne_none _ ws)
    | ring t w => exact ih (h.resolve_left Bool.false_ne_true) _

/-- Writes to a series' file keep the names, whatever becomes of the open minutes of known names. -/
theorem Kept.note (hkept : r.Kept digest K) (hfiles : Set.InjOn (fileOf digest) K) {key : SeriesKey} (hkey : key.2 ∈ K)
    {ws : List FileWrite} (hstarts : Starts (r.history.files.get? (fileKey digest key)) ws) {h : History}
    (hopened : ∀ k c, h.opened.get? k = some c → k.2 ∈ K)
    (hget : ∀ k, h.files.get? k =
      if k = fileKey digest key then RingFile.writeAll (r.history.files.get? k) ws else r.history.files.get? k) :
    (r.note digest key ws h).Kept digest K := by
  by_cases hws : ws.isEmpty = true
  · -- nothing is written
    obtain rfl := List.isEmpty_iff.1 hws
    have hsame : ∀ k, h.files.get? k = r.history.files.get? k := by
      intro k
      rw [hget]
      split <;> rfl
    have hnote : r.note digest key [] h = { r with history := h } := by
      unfold Named.note
      rw [List.any_nil, Bool.and_false, if_neg Bool.false_ne_true]
      rfl
    rw [hnote]
    refine ⟨hopened, fun k hk => ⟨(hkept.written k hk).1, ?_⟩, fun k f hf => hkept.files k f (hsame k ▸ hf), hkept.names⟩
    rw [OMap.contains, hsame]
    exact (hkept.written k hk).2
  · rw [Bool.not_eq_true] at hws
    have hwritten : (r.note digest key ws h).written = key :: r.written := by
      rw [Named.note, hws]
      rfl
    have hget' : ∀ k, (r.note digest key ws h).history.files.get? k =
        if k = fileKey digest key then RingFile.writeAll (r.history.files.get? k) ws else r.history.files.get? k := hget
    have hthere : h.files.contains (fileKey digest key) = true := by
      rw [OMap.contains, hget, if_pos rfl]
      cases hf : r.history.files.get? (fileKey digest key) with
      | some f => exact Option.isSome_iff_ne_none.2 (RingFile.writeAll_ne_none f ws)
      | none => exact writeAll_isSome (hstarts hf hws) none
    have hnames : ∀ k, k.2 ∈ K → (k = key ∨ k ∈ r.written) → hashed (fileOf digest k.2) = true →
        (r.note digest key ws h).names.get? (fileKey digest k) = some k.2 := by
      intro k hk hin hhashed
      unfold Named.note
      dsimp only
      by_cases hcreate : ws.any FileWrite.isCreate = true
      · by_cases heq : k = key
        · rw [heq] at hhashed ⊢
          rw [hhashed, hcreate, Bool.and_self, if_pos rfl, OMap.get?_set_self]
        · have hold := hkept.names k (hin.resolve_left heq) hhashed
          split
          · rw [OMap.get?_set_of_ne _ fun hf => heq (fileKey_injOn hfiles hk hkey hf)]
            exact hold
          · exact hold
      · rw [Bool.not_eq_true] at hcreate
        rw [hcreate, Bool.and_false, if_neg Bool.false_ne_true]
        refine hkept.names k (hin.elim (fun heq => ?_) id) hhashed
        cases hf : r.history.files.get? (fileKey digest key) with
        | some f =>
          obtain ⟨key', hkey', hfile⟩ := hkept.files _ f hf
          rw [heq, fileKey_injOn hfiles hkey (hkept.written key' hkey').1 hfile]
          exact hkey'
        | none =>
          rw [hstarts hf hws] at hcreate
          cases hcreate
    refine ⟨hopened, fun k hk => ?_, fun k f hf => ?_, fun k hk hhashed => ?_⟩
    · rw [hwritten] at hk
      rcases List.mem_cons.1 hk with rfl | hk
      · exact ⟨hkey, hthere⟩
      · refine ⟨(hkept.written k hk).1, ?_⟩
        by_cases heq : k = key
        · rw [heq]
          exact hthere
        · rw [OMap.contains, hget', if_neg fun hf => heq (fileKey_injOn hfiles (hkept.written k hk).1 hkey hf)]
          exact (hkept.written k hk).2
    · rw [hwritten]
      rw [hget'] at hf
      split at hf
      · rename_i heq
        exact ⟨key, List.mem_cons_self, heq⟩
      · obtain ⟨key', hkey', hfile⟩ := hkept.files k f hf
        exact ⟨key', List.mem_cons_of_mem key hkey', hfile⟩
    · rw [hwritten] at hk
      rcases List.mem_cons.1 hk with rfl | hk
      · exact hnames k hkey (Or.inl rfl) hhashed
      · exact hnames k (hkept.written k hk).1 (Or.inr hk) hhashed

/-! ### The steps -/

/-- An entry of an `add` makes its writes, and opens no minute but its own. -/
private theorem addEntry_spec (h : History) (node : NodeId) (t : ℕ) (e : JsString × Option ℚ) :
    (∀ k, k ≠ (node, e.1) → (History.addEntry f32 digest maxSeries node t h e).opened.get? k = h.opened.get? k) ∧
      ∀ k, (History.addEntry f32 digest maxSeries node t h e).files.get? k =
        if k = fileKey digest (node, e.1) then
          RingFile.writeAll (h.files.get? k) (h.entryWrites f32 digest maxSeries node t e) else h.files.get? k := by
  obtain ⟨name, _ | v⟩ := e
  · exact ⟨fun _ _ => rfl, fun k => (ite_self _).symm⟩
  · obtain ⟨hopened, hframe⟩ := addOne_frame f32 digest maxSeries (h := h) (node, name) v t
    refine ⟨hopened, fun k => ?_⟩
    by_cases hk : k = fileKey digest (node, name)
    · rw [if_pos hk]
      unfold entryWrites History.addEntry History.addOne
      dsimp only
      cases hcur : h.opened.get? (node, name) with
      | none =>
        dsimp only
        split <;> rfl
      | some cur =>
        dsimp only
        by_cases hsame : cur.minute = (t : ℤ) / History.MIN
        · rw [if_pos hsame, if_pos hsame]
          rfl
        · rw [if_neg hsame, if_neg hsame]
          set h' : History := { h with added := h.added ++ [⟨(node, name), (t : ℤ) / History.MIN, v⟩] }
          obtain ⟨-, -, -, hfiles⟩ := h'.onDisk_spec digest (node, name) (h'.writes f32 digest maxSeries (node, name) cur)
          have hclose := hfiles k
          rw [if_pos hk] at hclose
          split <;> exact hclose
    · rw [if_neg hk]
      exact hframe k hk

private theorem starts_entryWrites (h : History) (node : NodeId) (t : ℕ) (e : JsString × Option ℚ) :
    Starts (h.files.get? (fileKey digest (node, e.1))) (h.entryWrites f32 digest maxSeries node t e) := by
  unfold entryWrites
  split
  · split
    · exact starts_nil _
    · exact starts_writes h (node, e.1) _
  · exact starts_nil _

theorem Kept.addEntry (hkept : r.Kept digest K) (hfiles : Set.InjOn (fileOf digest) K) {e : JsString × Option ℚ}
    (he : e.1 ∈ K) (node : NodeId) (t : ℕ) : (r.addEntry f32 digest maxSeries node t e).Kept digest K := by
  obtain ⟨hopened, hget⟩ := @addEntry_spec f32 digest maxSeries r.history node t e
  refine hkept.note hfiles he (starts_entryWrites _ node t e) (fun k c hc => ?_) hget
  by_cases hk : k = (node, e.1)
  · rw [hk]
    exact he
  · rw [hopened k hk] at hc
    exact hkept.opened k c hc

theorem Kept.addEntries (hkept : r.Kept digest K) (hfiles : Set.InjOn (fileOf digest) K)
    {es : List (JsString × Option ℚ)} (hes : ∀ e ∈ es, e.1 ∈ K) (node : NodeId) (t : ℕ) :
    (es.foldl (Named.addEntry f32 digest maxSeries node t) r).Kept digest K := by
  induction es generalizing r with
  | nil => exact hkept
  | cons e es ih =>
    exact ih (hkept.addEntry hfiles (hes e List.mem_cons_self) node t) fun e' he' => hes e' (List.mem_cons_of_mem e he')

theorem Kept.flushOne (hkept : r.Kept digest K) (hfiles : Set.InjOn (fileOf digest) K) {e : SeriesKey × Cur}
    (he : e.1.2 ∈ K) (t : ℕ) : (r.flushOne f32 digest maxSeries t e).Kept digest K := by
  obtain ⟨hopened, -, -, hget⟩ := r.history.onDisk_spec digest e.1 (r.history.writes f32 digest maxSeries e.1 e.2)
  have hframe := (flushOne_frame f32 digest maxSeries (h := r.history) t e).1
  refine hkept.note hfiles he (starts_writes _ e.1 e.2) (fun k c hc => ?_) fun k => ?_
  · by_cases hk : k = e.1
    · rw [hk]
      exact he
    · rw [hframe k hk] at hc
      exact hkept.opened k c hc
  · rw [← hget k]
    unfold History.flushOne
    dsimp only
    split <;> rfl

theorem Kept.flushEntries (hkept : r.Kept digest K) (hfiles : Set.InjOn (fileOf digest) K)
    {es : List (SeriesKey × Cur)} (hes : ∀ e ∈ es, e.1.2 ∈ K) (t : ℕ) :
    (es.foldl (Named.flushOne f32 digest maxSeries t) r).Kept digest K := by
  induction es generalizing r with
  | nil => exact hkept
  | cons e es ih =>
    exact ih (hkept.flushOne hfiles (hes e List.mem_cons_self) t) fun e' he' => hes e' (List.mem_cons_of_mem e he')

theorem Kept.restart (hkept : r.Kept digest K) : r.restart.Kept digest K :=
  ⟨fun _ _ hc => (by cases hc), hkept.written, hkept.files, hkept.names⟩

theorem Kept.cutClose (hkept : r.Kept digest K) (hfiles : Set.InjOn (fileOf digest) K) {key : SeriesKey}
    (hkey : key.2 ∈ K) (c : Cur) (k : ℕ) : (r.cutClose f32 digest maxSeries key c k).Kept digest K := by
  obtain ⟨-, -, -, hget⟩ :=
    r.history.onDisk_spec digest key ((r.history.writes f32 digest maxSeries key c).take k)
  exact hkept.note hfiles hkey (Starts.take (head_writes _ key c) k) (fun _ _ hc => by cases hc) hget

/-- What is removed is removed with its names. -/
theorem Kept.without (hkept : r.Kept digest K) (nodes : NodeId → Bool) (files : NodeId × JsString → Bool) :
    (r.without digest nodes files).Kept digest K := by
  have hwritten : ∀ key, key ∈ (r.without digest nodes files).written ↔
      key ∈ r.written ∧ files (fileKey digest key) = false := by
    intro key
    rw [Named.without, List.mem_filter, Bool.not_eq_true']
  refine ⟨fun key c hc => ?_, fun key hkey => ?_, fun k f hf => ?_, fun key hkey hhashed => ?_⟩
  · have hc' : (r.history.opened.filter fun k _ => !nodes k.1).get? key = some c := hc
    rw [OMap.get?_filter, Option.filter_eq_some_iff] at hc'
    exact hkept.opened key c hc'.1
  · obtain ⟨hin, hstays⟩ := (hwritten key).1 hkey
    obtain ⟨hK, hfile⟩ := hkept.written key hin
    refine ⟨hK, ?_⟩
    obtain ⟨f, hf⟩ := OMap.contains_iff.1 hfile
    refine OMap.contains_iff.2 ⟨f, ?_⟩
    show (r.history.files.filter fun k _ => !files k).get? _ = some f
    rw [OMap.get?_filter, Option.filter_eq_some_iff, hstays]
    exact ⟨hf, rfl⟩
  · have hf' : (r.history.files.filter fun k _ => !files k).get? k = some f := hf
    rw [OMap.get?_filter, Option.filter_eq_some_iff, Bool.not_eq_true'] at hf'
    obtain ⟨key, hkey, rfl⟩ := hkept.files k f hf'.1
    exact ⟨key, (hwritten key).2 ⟨hkey, hf'.2⟩, rfl⟩
  · obtain ⟨hin, hstays⟩ := (hwritten key).1 hkey
    show (r.names.filter fun k _ => !files k).get? _ = _
    rw [OMap.get?_filter, hkept.names key hin hhashed, Option.filter_some, hstays]
    rfl

theorem Kept.step (hkept : r.Kept digest K) (hfiles : Set.InjOn (fileOf digest) K) {s : Step} (hs : s.Gives K) :
    (r.step f32 digest maxSeries s).Kept digest K := by
  obtain ⟨t, op⟩ := s
  suffices heff : (r.effect f32 digest maxSeries t op).Kept digest K from
    ⟨heff.opened, heff.written, heff.files, heff.names⟩
  cases op with
  | call op => cases op with
    | add node values => exact hkept.addEntries hfiles hs node t
    | flush => exact hkept.flushEntries hfiles (fun e he => hkept.opened e.1 e.2 (OMap.mem_entries_iff.1 he)) t
    | restart => exact hkept.restart
    | cutAdd node values place k =>
      have hall : ∀ e ∈ values.entries, e.1 ∈ K := hs
      have hadd := @Kept.addEntries f32 digest maxSeries K r hkept hfiles _
        (fun e he => hall e ((List.take_subset place _) he)) node t
      unfold effect cutAdd
      dsimp only
      split
      · rename_i name v hplace
        split
        · split
          · exact hadd.restart
          · exact hadd.cutClose hfiles (hall _ (List.mem_of_getElem? hplace)) _ k
        · exact hadd.restart
      · exact hadd.restart
    | cutFlush place k =>
      have hall : ∀ e ∈ r.history.opened.entries, e.1.2 ∈ K :=
        fun e he => hkept.opened e.1 e.2 (OMap.mem_entries_iff.1 he)
      have hflush := @Kept.flushEntries f32 digest maxSeries K r hkept hfiles _
        (fun e he => hall e ((List.take_subset place _) he)) t
      unfold effect cutFlush
      dsimp only
      split
      · rename_i key c hplace
        exact hflush.cutClose hfiles (hall _ (List.mem_of_getElem? hplace)) c k
      · exact hflush.restart
  | remove node => exact hkept.without _ _
  | sweep alive bare => exact hkept.without _ _

theorem kept_run (hfiles : Set.InjOn (fileOf digest) K) {steps : List Step} (hsteps : ∀ s ∈ steps, s.Gives K) :
    (Runs.run (step f32 digest maxSeries) empty steps).Kept digest K := by
  have hmeets : Runs.Meets (step f32 digest maxSeries) (fun _ s => s.Gives K) empty steps :=
    Runs.meets_of_forall (p := fun s : Step => s.Gives K) hsteps
  exact hmeets.invariant (fun _ s hkept hs => hkept.step hfiles hs) (kept_empty digest K)

/-! ### The listing -/

private theorem mapM_listed {κ α : Type*} {f : κ → Option α} {g : κ → α} {ks : List κ}
    (h : ∀ k ∈ ks, f k = some (g k)) :
    ks.mapM f = some (ks.map g) := by
  induction ks with
  | nil => rfl
  | cons k ks ih =>
    rw [List.mapM_cons, h k List.mem_cons_self, ih fun k' hk' => h k' (List.mem_cons_of_mem k hk')]
    rfl

/-- A listing gives the names written or open, and no others. -/
theorem Kept.series (hkept : r.Kept digest K) (hK : ∀ n ∈ K, ¬ js "h-" <+: n) (node : NodeId) :
    ∃ names, r.series node = some names ∧
      ∀ name, name ∈ names ↔ (node, name) ∈ r.written ∨ r.history.opened.contains (node, name) = true := by
  have hlisted : ∀ key ∈ r.written, r.listed (fileKey digest key) = some (some key.2) := by
    intro key hkey
    have hfile : (fileKey digest key).2 = fileOf digest key.2 := rfl
    rw [listed, hfile]
    rcases fileOf_spec digest (hK key.2 (hkept.written key hkey).1) with ⟨hplain, hdecode⟩ | ⟨hhashed, -⟩
    · rw [hplain, if_neg Bool.false_ne_true, hdecode]
      rfl
    · rw [if_pos hhashed, hkept.names key hkey hhashed]
  set ks := r.history.files.keys.filter fun k => k.1 = node with hks
  have hmem : ∀ k, k ∈ ks ↔ ∃ key ∈ r.written, k = fileKey digest key ∧ key.1 = node := by
    intro k
    rw [hks, List.mem_filter, OMap.mem_keys_iff, decide_eq_true_eq]
    constructor
    · rintro ⟨⟨f, hf⟩, hnode⟩
      obtain ⟨key, hkey, rfl⟩ := hkept.files k f hf
      exact ⟨key, hkey, rfl, hnode⟩
    · rintro ⟨key, hkey, rfl, hnode⟩
      exact ⟨OMap.contains_iff.1 (hkept.written key hkey).2, hnode⟩
  have hmapM : ks.mapM r.listed = some (ks.map fun k => (r.listed k).join) := by
    refine mapM_listed fun k hk => ?_
    obtain ⟨key, hkey, rfl, -⟩ := (hmem k).1 hk
    rw [hlisted key hkey]
    rfl
  refine ⟨_, by rw [Named.series, ← hks, hmapM, Option.map_some], fun name => ?_⟩
  rw [List.mem_eraseDups, List.mem_append, List.reduceOption_mem_iff, List.mem_map, List.mem_map]
  refine or_congr ?_ ?_
  · constructor
    · rintro ⟨k, hk, hname⟩
      obtain ⟨key, hkey, rfl, rfl⟩ := (hmem k).1 hk
      rw [hlisted key hkey] at hname
      obtain rfl := Option.some.inj hname
      exact hkey
    · intro hkey
      refine ⟨fileKey digest (node, name), (hmem _).2 ⟨_, hkey, rfl, rfl⟩, ?_⟩
      rw [hlisted _ hkey]
      rfl
  · constructor
    · rintro ⟨key, hkey, rfl⟩
      obtain ⟨hin, hnode⟩ := List.mem_filter.1 hkey
      rw [decide_eq_true_eq] at hnode
      rw [← hnode]
      exact OMap.contains_iff.2 (OMap.mem_keys_iff.1 hin)
    · intro hopen
      refine ⟨(node, name), List.mem_filter.2 ⟨OMap.mem_keys_iff.2 (OMap.contains_iff.1 hopen), ?_⟩, rfl⟩
      exact decide_eq_true rfl

end Named

end Servitals
