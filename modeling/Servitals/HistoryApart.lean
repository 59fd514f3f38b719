import Servitals.HistoryNames
import Servitals.HistorySeries

/-!
# The series of a node are apart

Where a file is written, and which series a node may have, does not depend on the values.  So two runs that differ in
the values given under other names than one have files alike (`Alike`), and the series of that name is the same: a query
of a name answers nothing of another's data (`names_apart`).
-/

namespace Servitals

namespace FileWrite

/-- The write without the point it puts in its slot. -/
def blank : FileWrite → FileWrite
  | .create shape => .create shape
  | .ring t w => .ring t w.blank

private theorem blank_map_ring (t : Tier) (ws : List (SlotRing.Write Point)) :
    (ws.map (.ring t)).map blank = (ws.map SlotRing.Write.blank).map (.ring t) := by
  rw [List.map_map, List.map_map]
  rfl

end FileWrite

namespace RingFile

/-- Files of one shape whose rings were last written at the same indices. -/
structure Alike (f g : RingFile) : Prop where
  shape : f.shape = g.shape
  last : ∀ t, (f.rings t).last = (g.rings t).last

theorem Alike.refl (f : RingFile) : f.Alike f := ⟨rfl, fun _ => rfl⟩

private theorem alike_write {f g : Option RingFile} (h : Option.Rel Alike f g) {w v : FileWrite}
    (hw : w.blank = v.blank) :
    Option.Rel Alike (write f w) (write g v) := by
  cases w with
  | create s =>
    cases v with
    | create s' =>
      cases hw
      exact .some (.refl _)
    | ring t' v => cases hw
  | ring t w =>
    cases v with
    | create s' => cases hw
    | ring t' v =>
      obtain ⟨rfl, hblank⟩ := FileWrite.ring.inj hw
      cases h with
      | none => exact .none
      | some h =>
        refine .some ⟨h.shape, fun u => ?_⟩
        dsimp only
        by_cases hu : u = t
        · rw [hu, Function.update_self, Function.update_self]
          exact SlotRing.last_write _ (h.last t) hblank
        · rw [Function.update_of_ne hu, Function.update_of_ne hu]
          exact h.last u

private theorem alike_writeAll {f g : Option RingFile} (h : Option.Rel Alike f g) {ws vs : List FileWrite}
    (hws : ws.map FileWrite.blank = vs.map FileWrite.blank) : Option.Rel Alike (writeAll f ws) (writeAll g vs) := by
  induction ws generalizing f g vs with
  | nil =>
    obtain rfl := List.map_eq_nil_iff.1 hws.symm
    exact h
  | cons w ws ih =>
    cases vs with
    | nil => cases hws
    | cons v vs =>
      obtain ⟨hw, hrest⟩ := List.cons.inj hws
      exact ih (alike_write h hw) hrest

variable (f32 : ℚ → ℚ)

theorem Alike.tiersOf {f g : RingFile} (h : f.Alike g) (minute : ℤ) (p q : Point) :
    f.tiersOf f32 minute p = g.tiersOf f32 minute q := by
  have hlast : ((f.afterMinute f32 minute p).rings .minute).last = ((g.afterMinute f32 minute q).rings .minute).last := by
    unfold afterMinute
    dsimp only
    rw [Function.update_self, Function.update_self]
    exact SlotRing.last_writeAll _ (h.last .minute) (SlotRing.blank_putWrites _ _ (h.last .minute) _ _ _)
  unfold RingFile.tiersOf
  rw [hlast, h.shape]

theorem Alike.putMinute {f g : RingFile} (h : f.Alike g) (minute : ℤ) (p q : Point) :
    (f.putMinute f32 minute p).map FileWrite.blank = (g.putMinute f32 minute q).map FileWrite.blank := by
  rw [putMinute_eq, putMinute_eq, h.tiersOf f32 minute p q, List.map_flatMap, List.map_flatMap]
  refine List.flatMap_congr fun t _ => ?_
  rw [FileWrite.blank_map_ring, FileWrite.blank_map_ring]
  congr 1
  exact SlotRing.blank_putWrites _ _ (h.last t) _ _ _

private theorem alike_minuteWrites {f g : Option RingFile} (h : Option.Rel Alike f g) (shape : Shape) (minute : ℤ)
    (p q : Point) :
    (minuteWrites f32 f shape minute p).map FileWrite.blank = (minuteWrites f32 g shape minute q).map FileWrite.blank := by
  have hfresh : ((FileWrite.create shape) :: (fresh shape).putMinute f32 minute p).map FileWrite.blank =
      ((FileWrite.create shape) :: (fresh shape).putMinute f32 minute q).map FileWrite.blank := by
    rw [List.map_cons, List.map_cons, (Alike.refl (fresh shape)).putMinute f32 minute p q]
  unfold minuteWrites
  cases h with
  | none => exact hfresh
  | some h =>
    rename_i f g
    by_cases hshape : f.shape = shape
    · rw [Option.filter_some, Option.filter_some, if_pos (by simpa using hshape),
        if_pos (by simpa [← h.shape] using hshape)]
      exact h.putMinute f32 minute p q
    · rw [Option.filter_some, Option.filter_some, if_neg (by simpa using hshape),
        if_neg (by simpa [← h.shape] using hshape)]
      exact hfresh

end RingFile

namespace History

/-- Two histories alike but for the values of other series than one. -/
structure Alike (digest : JsString → JsString) (K : Set JsString) (key : SeriesKey) (h h' : History) : Prop where
  opened : OMap.Rel (fun c c' : Cur => c.minute = c'.minute) h.opened h'.opened
  files : OMap.Rel RingFile.Alike h.files h'.files
  cur : h.opened.get? key = h'.opened.get? key
  file : h.files.get? (fileKey digest key) = h'.files.get? (fileKey digest key)
  names : ∀ k c, h.opened.get? k = some c → k.2 ∈ K

variable {f32 : ℚ → ℚ} {digest : JsString → JsString} {maxSeries : ℕ} {K : Set JsString} {key : SeriesKey}
  {h h' : History}

/-- The series is the same in both, and so is what a query of it answers. -/
theorem Alike.query (ha : Alike digest K key h h') (range : Range) (t : ℕ) :
    h.query digest key range t = h'.query digest key range t := by
  have hseries : h.series digest key = h'.series digest key := by rw [series, series, ha.cur, ha.file]
  rw [query_eq, query_eq, hseries]

theorem Alike.admits (ha : Alike digest K key h h') (k : SeriesKey) :
    h.admits digest maxSeries k = h'.admits digest maxSeries k := by
  have hcontains : h.files.contains (fileKey digest k) = h'.files.contains (fileKey digest k) := by
    have hrel := ha.files.get? (fileKey digest k)
    unfold OMap.contains
    generalize h.files.get? (fileKey digest k) = f at hrel ⊢
    generalize h'.files.get? (fileKey digest k) = f' at hrel ⊢
    cases hrel <;> rfl
  have hcount : ∀ g : History, (g.files.entries.filter fun e => e.1.1 = k.1).length =
      (g.files.keys.filter fun e => e.1 = k.1).length := by
    intro g
    rw [OMap.keys, List.filter_map, List.length_map]
    rfl
  unfold History.admits
  rw [hcontains, hcount, hcount, ha.files.keys]

private theorem Alike.blank_writes (ha : Alike digest K key h h') (k : SeriesKey) {c c' : Cur}
    (hc : c.minute = c'.minute) :
    (h.writes f32 digest maxSeries k c).map FileWrite.blank = (h'.writes f32 digest maxSeries k c').map FileWrite.blank := by
  unfold writes
  rw [ha.admits k, hc]
  split
  · exact RingFile.alike_minuteWrites f32 (ha.files.get? _) _ _ _ _
  · rfl

private theorem Alike.writes_self (ha : Alike digest K key h h') (c : Cur) :
    h.writes f32 digest maxSeries key c = h'.writes f32 digest maxSeries key c := by
  unfold writes
  rw [ha.admits key, ha.file]

theorem Alike.withOpened (ha : Alike digest K key h h') {o o' : OMap SeriesKey Cur}
    (ho : OMap.Rel (fun c c' : Cur => c.minute = c'.minute) o o') (hcur : o.get? key = o'.get? key)
    (hnames : ∀ k c, o.get? k = some c → k.2 ∈ K) :
    Alike digest K key { h with opened := o } { h' with opened := o' } :=
  ⟨ho, ha.files, hcur, ha.file, hnames⟩

theorem Alike.setOpened (ha : Alike digest K key h h') {k : SeriesKey} (hk : k.2 ∈ K) {c c' : Cur}
    (hc : c.minute = c'.minute) (hown : k = key → c = c') :
    Alike digest K key { h with opened := h.opened.set k c } { h' with opened := h'.opened.set k c' } := by
  refine ha.withOpened (ha.opened.set k hc) ?_ fun k' d hd => ?_
  · rw [OMap.get?_set, OMap.get?_set]
    split
    · rename_i hself
      rw [hown hself.symm]
    · exact ha.cur
  · rw [OMap.get?_set] at hd
    split at hd
    · rename_i hself
      rw [hself]
      exact hk
    · exact ha.names k' d hd

private theorem Alike.eraseOpened (ha : Alike digest K key h h') (k : SeriesKey) :
    Alike digest K key { h with opened := h.opened.erase k } { h' with opened := h'.opened.erase k } := by
  refine ha.withOpened (ha.opened.erase k) ?_ fun k' d hd => ?_
  · rw [OMap.get?_erase, OMap.get?_erase, ha.cur]
  · rw [OMap.get?_erase] at hd
    split at hd
    · cases hd
    · exact ha.names k' d hd

theorem Alike.restart (ha : Alike digest K key h h') : Alike digest K key h.restart h'.restart :=
  ha.withOpened .nil rfl fun _ _ hc => by cases hc

/-- Writes to the file of a series, the same if it is the one. -/
theorem Alike.onDisk (ha : Alike digest K key h h') (hfiles : Set.InjOn (fileOf digest) K) (hkey : key.2 ∈ K)
    {k : SeriesKey} (hk : k.2 ∈ K) {ws ws' : List FileWrite}
    (hws : ws.map FileWrite.blank = ws'.map FileWrite.blank) (hown : k = key → ws = ws') :
    Alike digest K key (h.onDisk digest k ws) (h'.onDisk digest k ws') := by
  obtain ⟨hopened, -, -, hget⟩ := h.onDisk_spec digest k ws
  obtain ⟨hopened', -, -, hget'⟩ := h'.onDisk_spec digest k ws'
  refine ⟨by rw [hopened, hopened']; exact ha.opened, ?_, by rw [hopened, hopened']; exact ha.cur, ?_, ?_⟩
  · have hrel := RingFile.alike_writeAll (ha.files.get? (fileKey digest k)) hws
    unfold History.onDisk
    generalize RingFile.writeAll (h.files.get? (fileKey digest k)) ws = f at hrel
    generalize RingFile.writeAll (h'.files.get? (fileKey digest k)) ws' = f' at hrel
    cases hrel with
    | none => exact ha.files
    | some hff => exact ha.files.set _ hff
  · rw [hget, hget', ha.file]
    split
    · rename_i hself
      rw [hown (Named.fileKey_injOn hfiles hk hkey hself.symm)]
    · rfl
  · intro k' c hc
    rw [hopened] at hc
    exact ha.names k' c hc

theorem Alike.close (ha : Alike digest K key h h') (hfiles : Set.InjOn (fileOf digest) K) (hkey : key.2 ∈ K)
    {k : SeriesKey} (hk : k.2 ∈ K) {c c' : Cur} (hc : c.minute = c'.minute) (hown : k = key → c = c') :
    Alike digest K key (h.close f32 digest maxSeries k c) (h'.close f32 digest maxSeries k c') := by
  refine ha.onDisk hfiles hkey hk (ha.blank_writes k hc) fun hself => ?_
  rw [hown hself, hself]
  exact ha.writes_self c'

theorem Alike.cutClose (ha : Alike digest K key h h') (hfiles : Set.InjOn (fileOf digest) K) (hkey : key.2 ∈ K)
    {k : SeriesKey} (hk : k.2 ∈ K) {c c' : Cur} (hc : c.minute = c'.minute) (hown : k = key → c = c') (n : ℕ) :
    Alike digest K key (h.cutClose f32 digest maxSeries k c n) (h'.cutClose f32 digest maxSeries k c' n) := by
  refine (ha.onDisk hfiles hkey hk ?_ fun hself => ?_).restart
  · rw [List.map_take, List.map_take, ha.blank_writes k hc]
  · rw [hown hself, hself, ha.writes_self c']

/-- A value given to a series, the same if it is the one. -/
theorem Alike.addOne (ha : Alike digest K key h h') (hfiles : Set.InjOn (fileOf digest) K) (hkey : key.2 ∈ K)
    {k : SeriesKey} (hk : k.2 ∈ K) {v v' : ℚ} (hv : k = key → v = v') (t : ℕ) :
    Alike digest K key (h.addOne f32 digest maxSeries k v t) (h'.addOne f32 digest maxSeries k v' t) := by
  have hadded : Alike digest K key { h with added := h.added ++ [⟨k, (t : ℤ) / MIN, v⟩] }
      { h' with added := h'.added ++ [⟨k, (t : ℤ) / MIN, v'⟩] } := ⟨ha.opened, ha.files, ha.cur, ha.file, ha.names⟩
  have hfirst : ∀ {g g' : History}, Alike digest K key g g' → Alike digest K key
      (if g.admits digest maxSeries k then { g with opened := g.opened.set k (.first ((t : ℤ) / MIN) v) } else g)
      (if g'.admits digest maxSeries k then { g' with opened := g'.opened.set k (.first ((t : ℤ) / MIN) v') } else g') := by
    intro g g' hg
    rw [hg.admits k]
    split
    · exact hg.setOpened hk rfl fun hself => by rw [hv hself]
    · exact hg
  have hrel := ha.opened.get? k
  have hown : k = key → h.opened.get? k = h'.opened.get? k := by
    rintro rfl
    exact ha.cur
  unfold History.addOne
  dsimp only
  generalize h.opened.get? k = c at hrel hown ⊢
  generalize h'.opened.get? k = c' at hrel hown ⊢
  cases hrel with
  | none => exact hfirst hadded
  | some hc =>
    rename_i c c'
    dsimp only
    rw [hc]
    split
    · refine hadded.setOpened hk hc fun hself => ?_
      rw [Option.some.inj (hown hself), hv hself]
    · exact hfirst (hadded.close hfiles hkey hk hc fun hself => Option.some.inj (hown hself))

/-! ### The steps -/

/-- Two entries of an `add`: a number in both or in neither, the same under the one name. -/
def AlikeEntry (key : SeriesKey) (node : NodeId) (e e' : JsString × Option ℚ) : Prop :=
  e.1 = e'.1 ∧ e.2.isSome = e'.2.isSome ∧ ((node, e.1) = key → e.2 = e'.2)

/-- Two calls that differ in the values given under other names. -/
inductive AlikeOp (key : SeriesKey) : HistoryOp → HistoryOp → Prop
  | same (op : HistoryOp) : AlikeOp key op op
  | add (node : NodeId) (values values' : OMap JsString (Option ℚ))
      (h : List.Forall₂ (AlikeEntry key node) values.entries values'.entries) :
      AlikeOp key (.add node values) (.add node values')
  | cutAdd (node : NodeId) (values values' : OMap JsString (Option ℚ)) (place k : ℕ)
      (h : List.Forall₂ (AlikeEntry key node) values.entries values'.entries) :
      AlikeOp key (.cutAdd node values place k) (.cutAdd node values' place k)

private theorem alikeEntry_refl (key : SeriesKey) (node : NodeId) (es : List (JsString × Option ℚ)) :
    List.Forall₂ (AlikeEntry key node) es es :=
  List.forall₂_same.2 fun _ _ => ⟨rfl, rfl, fun _ => rfl⟩

theorem Alike.addEntries (ha : Alike digest K key h h') (hfiles : Set.InjOn (fileOf digest) K) (hkey : key.2 ∈ K)
    {node : NodeId} {es es' : List (JsString × Option ℚ)} (hes : ∀ e ∈ es, e.1 ∈ K)
    (hrel : List.Forall₂ (AlikeEntry key node) es es') (t : ℕ) :
    Alike digest K key (es.foldl (addEntry f32 digest maxSeries node t) h)
      (es'.foldl (addEntry f32 digest maxSeries node t) h') := by
  induction hrel generalizing h h' with
  | nil => exact ha
  | cons he _ ih =>
    rename_i e e' es es' _
    refine ih ?_ fun e he => hes e (List.mem_cons_of_mem _ he)
    have hK := hes e List.mem_cons_self
    obtain ⟨name, v⟩ := e
    obtain ⟨name', v'⟩ := e'
    obtain ⟨rfl, hsome, hown⟩ := he
    cases v with
    | none => cases v' with
      | none => exact ha
      | some v' => cases hsome
    | some v => cases v' with
      | none => cases hsome
      | some v' => exact ha.addOne hfiles hkey (k := (node, name)) hK (fun hself => Option.some.inj (hown hself)) t

/-- Two open minutes, the same if they are of the one series. -/
def AlikeCur (K : Set JsString) (key k : SeriesKey) (c c' : Cur) : Prop :=
  k.2 ∈ K ∧ c.minute = c'.minute ∧ (k = key → c = c')

private theorem Alike.openEntries (ha : Alike digest K key h h') :
    List.Forall₂ (fun e e' => e.1 = e'.1 ∧ AlikeCur K key e.1 e.2 e'.2) h.opened.entries h'.opened.entries := by
  refine ha.opened.entries fun k c c' hc hc' hminute => ⟨ha.names k c hc, hminute, ?_⟩
  rintro rfl
  rw [ha.cur, hc'] at hc
  exact (Option.some.inj hc).symm

theorem Alike.flushEntries (ha : Alike digest K key h h') (hfiles : Set.InjOn (fileOf digest) K) (hkey : key.2 ∈ K)
    {es es' : List (SeriesKey × Cur)}
    (hrel : List.Forall₂ (fun e e' => e.1 = e'.1 ∧ AlikeCur K key e.1 e.2 e'.2) es es') (t : ℕ) :
    Alike digest K key (es.foldl (flushOne f32 digest maxSeries t) h) (es'.foldl (flushOne f32 digest maxSeries t) h') := by
  induction hrel generalizing h h' with
  | nil => exact ha
  | cons he _ ih =>
    rename_i e e' _ _ _
    refine ih ?_
    obtain ⟨k, c⟩ := e
    obtain ⟨k', c'⟩ := e'
    obtain ⟨rfl, hk, hc, hown⟩ := he
    have hclose := @Alike.close f32 digest maxSeries K key h h' ha hfiles hkey k hk c c' hc hown
    unfold flushOne
    dsimp only
    rw [show c.minute = c'.minute from hc]
    split
    · exact hclose.eraseOpened k
    · exact hclose

private theorem rel_getElem? {α β : Type*} {R : α → β → Prop} {xs : List α} {ys : List β} (h : List.Forall₂ R xs ys)
    (n : ℕ) : Option.Rel R xs[n]? ys[n]? := by
  induction h generalizing n with
  | nil => exact .none
  | cons hxy _ ih => cases n with
    | zero => exact .some hxy
    | succ n => exact ih n

/-- An `add` that is stopped, at the same value in both. -/
theorem Alike.cutAdd (ha : Alike digest K key h h') (hfiles : Set.InjOn (fileOf digest) K) (hkey : key.2 ∈ K)
    {node : NodeId} {values values' : OMap JsString (Option ℚ)} (hes : ∀ e ∈ values.entries, e.1 ∈ K)
    (hrel : List.Forall₂ (AlikeEntry key node) values.entries values'.entries) (place k t : ℕ) :
    Alike digest K key (h.cutAdd f32 digest maxSeries node values place k t)
      (h'.cutAdd f32 digest maxSeries node values' place k t) := by
  have hpart := @Alike.addEntries f32 digest maxSeries K key h h' ha hfiles hkey node _ _
    (fun e he => hes e (List.take_subset place _ he)) (List.forall₂_take place hrel) t
  have hplace := rel_getElem? hrel place
  have hmem : ∀ e, values.entries[place]? = some e → e.1 ∈ K := fun e he => hes e (List.mem_of_getElem? he)
  unfold History.cutAdd
  dsimp only
  generalize List.foldl (addEntry f32 digest maxSeries node t) h (List.take place values.entries) = g at hpart ⊢
  generalize List.foldl (addEntry f32 digest maxSeries node t) h' (List.take place values'.entries) = g' at hpart ⊢
  generalize values.entries[place]? = e at hplace hmem ⊢
  generalize values'.entries[place]? = e' at hplace ⊢
  cases hplace with
  | none => exact hpart.restart
  | some he =>
    rename_i e e'
    have hk := hmem e rfl
    obtain ⟨name, v⟩ := e
    obtain ⟨name', v'⟩ := e'
    obtain ⟨rfl, hsome, -⟩ := he
    cases v with
    | none => cases v' with
      | none => exact hpart.restart
      | some v' => cases hsome
    | some v => cases v' with
      | none => cases hsome
      | some v' =>
        have hcur := hpart.opened.get? (node, name)
        have hown : (node, name) = key → g.opened.get? (node, name) = g'.opened.get? (node, name) := by
          rintro rfl
          exact hpart.cur
        dsimp only
        generalize g.opened.get? (node, name) = c at hcur hown ⊢
        generalize g'.opened.get? (node, name) = c' at hcur hown ⊢
        cases hcur with
        | none => exact hpart.restart
        | some hc =>
          dsimp only
          rw [hc]
          split
          · exact hpart.restart
          · exact hpart.cutClose hfiles hkey (k := (node, name)) hk hc (fun hself => Option.some.inj (hown hself)) k

/-- A flush that is stopped, at the same place in both. -/
theorem Alike.cutFlush (ha : Alike digest K key h h') (hfiles : Set.InjOn (fileOf digest) K) (hkey : key.2 ∈ K)
    (place k t : ℕ) :
    Alike digest K key (h.cutFlush f32 digest maxSeries place k t) (h'.cutFlush f32 digest maxSeries place k t) := by
  have hpart := @Alike.flushEntries f32 digest maxSeries K key h h' ha hfiles hkey _ _
    (List.forall₂_take place ha.openEntries) t
  have hplace := rel_getElem? ha.openEntries place
  unfold History.cutFlush
  dsimp only
  generalize h.opened.entries[place]? = e at hplace ⊢
  generalize h'.opened.entries[place]? = e' at hplace ⊢
  cases hplace with
  | none => exact hpart.restart
  | some he =>
    rename_i e e'
    obtain ⟨k', c⟩ := e
    obtain ⟨k'', c'⟩ := e'
    obtain ⟨rfl, hk, hc, hown⟩ := he
    exact hpart.cutClose hfiles hkey hk hc hown k

theorem Alike.step (ha : Alike digest K key h h') (hfiles : Set.InjOn (fileOf digest) K) (hkey : key.2 ∈ K)
    {op op' : HistoryOp} {t : ℕ} (hop : AlikeOp key op op') (hK : (Named.Step.mk t (.call op)).Gives K) :
    Alike digest K key (h.step f32 digest maxSeries ⟨t, op⟩) (h'.step f32 digest maxSeries ⟨t, op'⟩) := by
  suffices heff : Alike digest K key (h.effect f32 digest maxSeries t op) (h'.effect f32 digest maxSeries t op') from
    ⟨heff.opened, heff.files, heff.cur, heff.file, heff.names⟩
  have hadd : ∀ {node : NodeId} {values values' : OMap JsString (Option ℚ)}, (∀ e ∈ values.entries, e.1 ∈ K) →
      List.Forall₂ (AlikeEntry key node) values.entries values'.entries →
      Alike digest K key (h.add f32 digest maxSeries node values t) (h'.add f32 digest maxSeries node values' t) :=
    fun hes hrel => ha.addEntries hfiles hkey hes hrel t
  cases hop with
  | same => cases op with
    | add node values => exact hadd hK (alikeEntry_refl key node _)
    | flush => exact ha.flushEntries hfiles hkey ha.openEntries t
    | restart => exact ha.restart
    | cutAdd node values place k => exact ha.cutAdd hfiles hkey hK (alikeEntry_refl key node _) place k t
    | cutFlush place k => exact ha.cutFlush hfiles hkey place k t
  | add node values values' hrel => exact hadd hK hrel
  | cutAdd node values values' place k hrel => exact ha.cutAdd hfiles hkey hK hrel place k t

theorem Alike.without (ha : Alike digest K key h h') (nodes : NodeId → Bool) (files : NodeId × JsString → Bool) :
    Alike digest K key (h.without nodes files) (h'.without nodes files) where
  opened := ha.opened.filterKeys fun k => !nodes k.1
  files := ha.files.filterKeys fun k => !files k
  cur := by
    unfold History.without
    dsimp only
    rw [OMap.get?_filter, OMap.get?_filter, ha.cur]
  file := by
    unfold History.without
    dsimp only
    rw [OMap.get?_filter, OMap.get?_filter, ha.file]
  names k c hc := by
    unfold History.without at hc
    dsimp only at hc
    rw [OMap.get?_filter, Option.filter_eq_some_iff] at hc
    exact ha.names k c hc.1

/-- The same files are swept. -/
theorem Alike.swept (ha : Alike digest K key h h') (alive : Option (List NodeId)) (bare : List NodeId) (t : ℕ) :
    h.sweptNode alive bare = h'.sweptNode alive bare ∧ h.sweptFile alive bare t = h'.sweptFile alive bare t := by
  have hnode : h.sweptNode alive bare = h'.sweptNode alive bare := by
    funext node
    rw [sweptNode, sweptNode, ha.files.keys]
  refine ⟨hnode, ?_⟩
  funext k
  have hrel := ha.files.get? k
  unfold sweptFile
  rw [hnode]
  generalize h.files.get? k = f at hrel ⊢
  generalize h'.files.get? k = f' at hrel ⊢
  cases hrel with
  | none => rfl
  | some hff => rw [Option.any_some, Option.any_some, hff.last]

end History

namespace Named

open History

/-- Two steps that differ in the values given under other names than one. -/
inductive AlikeStep (key : SeriesKey) : Step → Step → Prop
  | same (s : Step) : AlikeStep key s s
  | call (t : ℕ) {op op' : HistoryOp} (h : AlikeOp key op op') : AlikeStep key ⟨t, .call op⟩ ⟨t, .call op'⟩

variable {f32 : ℚ → ℚ} {digest : JsString → JsString} {maxSeries : ℕ} {K : Set JsString} {key : SeriesKey}

private theorem alike_step {r r' : Named} (ha : Alike digest K key r.history r'.history)
    (hfiles : Set.InjOn (fileOf digest) K)
    (hkey : key.2 ∈ K) {s s' : Step} (hs : AlikeStep key s s') (hK : s.Gives K) :
    Alike digest K key (r.step f32 digest maxSeries s).history (r'.step f32 digest maxSeries s').history := by
  have hcall : ∀ {t : ℕ} {op op' : HistoryOp}, AlikeOp key op op' → (Step.mk t (.call op)).Gives K →
      Alike digest K key (r.step f32 digest maxSeries ⟨t, .call op⟩).history
        (r'.step f32 digest maxSeries ⟨t, .call op'⟩).history := by
    intro t op op' hop hK
    rw [history_step, history_step]
    exact ha.step hfiles hkey hop hK
  cases hs with
  | call t hop => exact hcall hop hK
  | same =>
    obtain ⟨t, op⟩ := s
    cases op with
    | call op => exact hcall (.same op) hK
    | remove node =>
      have hgone := ha.without (fun n => n = node) fun k => k.1 = node
      exact ⟨hgone.opened, hgone.files, hgone.cur, hgone.file, hgone.names⟩
    | sweep alive bare =>
      obtain ⟨hnode, hfile⟩ := ha.swept alive bare t
      have hgone := ha.without (r.history.sweptNode alive bare) (r.history.sweptFile alive bare t)
      have hsweep : (r'.step f32 digest maxSeries ⟨t, .sweep alive bare⟩).history =
          { r'.history.without (r.history.sweptNode alive bare) (r.history.sweptFile alive bare t) with clock := t } := by
        rw [hnode, hfile]
        rfl
      rw [hsweep]
      exact ⟨hgone.opened, hgone.files, hgone.cur, hgone.file, hgone.names⟩

theorem alike_run {r r' : Named} (ha : Alike digest K key r.history r'.history) (hfiles : Set.InjOn (fileOf digest) K)
    (hkey : key.2 ∈ K) {steps steps' : List Step} (hsteps : List.Forall₂ (AlikeStep key) steps steps')
    (hK : ∀ s ∈ steps, s.Gives K) :
    Alike digest K key (Runs.run (step f32 digest maxSeries) r steps).history
      (Runs.run (step f32 digest maxSeries) r' steps').history := by
  induction hsteps generalizing r r' with
  | nil => exact ha
  | cons hs _ ih =>
    exact ih (alike_step ha hfiles hkey hs (hK _ List.mem_cons_self)) fun s hs => hK s (List.mem_cons_of_mem _ hs)

/-- Nothing is answered of a name that is neither written nor open. -/
theorem Kept.query {r : Named} (hkept : r.Kept digest K) (hfiles : Set.InjOn (fileOf digest) K) (hkey : key.2 ∈ K)
    (hwritten : key ∉ r.written) (hopen : r.history.opened.contains key = false) (range : Range) (t : ℕ) :
    r.history.query digest key range t = none := by
  have hcur : r.history.opened.get? key = none := by
    rw [OMap.contains] at hopen
    simpa using hopen
  have hfile : r.history.soundFile digest key = none := by
    unfold soundFile
    cases hf : r.history.files.get? (fileKey digest key) with
    | none => rfl
    | some f =>
      obtain ⟨key', hkey', hsame⟩ := hkept.files _ f hf
      rw [fileKey_injOn hfiles hkey (hkept.written key' hkey').1 hsame] at hwritten
      exact absurd hkey' hwritten
  unfold History.query
  rw [hfile, hcur]
  split <;> rfl

/-- **Names apart.**  For all names of series whose hashes are different: no two share a file, and their files are in
the node's directory.  After every run of adds, flushes, starts, kills, removals and sweeps under them, a listing gives
exactly the names written or open, and after a start exactly those written; and a query answers nothing of a name that
is neither, and the same whatever the values given under other names. -/
theorem names_apart (f32 : ℚ → ℚ) {digest : JsString → JsString} (hhex : HexDigest digest) (maxSeries : ℕ)
    {K : Set JsString} (hK : ∀ n ∈ K, IsSeriesName n) (hdigest : Set.InjOn digest K) :
    (∀ m ∈ K, ∀ n ∈ K, m ≠ n → fileOf digest m ≠ fileOf digest n) ∧
    (∀ n ∈ K, Inside (fileOf digest n) ∧ Inside (nameFile (fileOf digest n)) ∧ Inside (tmpFile (fileOf digest n))) ∧
    ∀ steps : List Step, (∀ s ∈ steps, s.Gives K) →
      let r := Runs.run (step f32 digest maxSeries) empty steps
      (∀ node, ∃ names, r.series node = some names ∧
        ∀ name, name ∈ names ↔ (node, name) ∈ r.written ∨ r.history.opened.contains (node, name) = true) ∧
      (∀ node, ∃ names, r.restart.series node = some names ∧ ∀ name, name ∈ names ↔ (node, name) ∈ r.written) ∧
      ∀ key : SeriesKey, key.2 ∈ K → ∀ range t,
        (key ∉ r.written → r.history.opened.contains key = false → r.history.query digest key range t = none) ∧
        ∀ steps', List.Forall₂ (AlikeStep key) steps steps' →
          r.history.query digest key range t =
            (Runs.run (step f32 digest maxSeries) empty steps').history.query digest key range t := by
  have hplain : ∀ n ∈ K, ¬ js "h-" <+: n := fun n hn => (hK n hn).not_hashed
  have hfiles := fileOf_injOn hplain hdigest
  refine ⟨fun m hm n hn hne heq => hne (hfiles hm hn heq), fun n _ => fileOf_inside hhex n, fun steps hsteps => ?_⟩
  intro r
  have hkept : r.Kept digest K := kept_run hfiles hsteps
  refine ⟨hkept.series hplain, fun node => ?_, fun key hkey range t => ⟨fun hwritten hopen => ?_, fun steps' halike => ?_⟩⟩
  · obtain ⟨names, hnames, hmem⟩ := hkept.restart.series hplain node
    refine ⟨names, hnames, fun name => (hmem name).trans (or_iff_left ?_)⟩
    exact Bool.false_ne_true
  · exact hkept.query hfiles hkey hwritten hopen range t
  · have hempty : Alike digest K key empty.history empty.history := ⟨.nil, .nil, rfl, rfl, fun _ _ hc => by cases hc⟩
    exact (alike_run hempty hfiles hkey halike hsteps).query range t

/-! ### A broken name -/

/-- A disk's name with half of a pair in it. -/
private def broken : JsString := js "disk./mnt/" ++ [0xd83d] ++ js ".used"

/-- The hashes of the names of the run. -/
private def hashes (s : JsString) : JsString :=
  if s = broken then js "ce1e77978e29d5cfddc4903dc78b65a6" else js "c4fc787d1d3b4cac81eaa0b90f084501"

private def brokenSnapshot : Json := .obj [
  (js "schema", .num (some 1)), (js "ts", .num (some 1790000000000)), (js "interval", .num (some 60)),
  (js "host", .obj [(js "name", .str (js "nas"))]), (js "cpu", .obj [(js "usage", .num (some 5))]),
  (js "disks", .arr [.obj [(js "mount", .str (js "/mnt/" ++ [0xd83d])), (js "pct", .num (some 7))]])]

private theorem brokenNames : ∀ n ∈ ({js "cpu", broken} : Set JsString), IsSeriesName n := by
  have hok : Snapshot.validate brokenSnapshot = .ok (brokenSnapshot, []) := by rfl
  have hmem : ∀ n ∈ [js "cpu", broken], n ∈ (Snapshot.seriesOf (Snapshot.view brokenSnapshot none [])).keys := by
    decide +kernel
  intro n hn
  refine ⟨brokenSnapshot, brokenSnapshot, [], none, [], hok, hmem n ?_⟩
  rcases hn with rfl | rfl
  · exact List.mem_cons_self
  · exact List.mem_cons_of_mem _ List.mem_cons_self

private def brokenRun (v : ℚ) : List Step := [
  ⟨0, .call (.add nasCpu.1 ((OMap.empty.set (js "cpu") (some 1)).set broken (some v)))⟩, ⟨60000, .call .flush⟩]

private def afterBroken (v : ℚ) : Named := Runs.run (step id hashes 600) empty (brokenRun v)

private theorem hexDigest_hashes : HexDigest hashes := by
  have hbroken : (js "ce1e77978e29d5cfddc4903dc78b65a6").all (fun u => (hexValue u).isSome) = true := by
    decide +kernel
  have hcpu : (js "c4fc787d1d3b4cac81eaa0b90f084501").all (fun u => (hexValue u).isSome) = true := by decide +kernel
  intro s
  unfold hashes
  split
  · exact List.all_eq_true.1 hbroken
  · exact List.all_eq_true.1 hcpu

private theorem injOn_hashes : Set.InjOn hashes {js "cpu", broken} := by
  have hne : hashes (js "cpu") ≠ hashes broken := by decide +kernel
  rintro m (rfl | rfl) n (rfl | rfl) heq
  · rfl
  · exact absurd heq hne
  · exact absurd heq.symm hne
  · rfl

private theorem entries_broken (v : ℚ) : ((OMap.empty.set (js "cpu") (some 1)).set broken (some v)).entries =
    [(js "cpu", some 1), (broken, some v)] := by
  have hne : broken ≠ js "cpu" := by decide +kernel
  have hnone : (OMap.empty.set (js "cpu") (some (1 : ℚ))).get? broken = none := by
    rw [OMap.get?_set, if_neg hne]
    rfl
  rw [OMap.entries_set_of_none hnone]
  rfl

private theorem gives_brokenRun (v : ℚ) : ∀ s ∈ brokenRun v, s.Gives {js "cpu", broken} := by
  intro s hs
  rcases List.mem_cons.1 hs with rfl | hs
  · intro e he
    rw [entries_broken] at he
    simp only [List.mem_cons, List.not_mem_nil, or_false] at he
    rcases he with rfl | rfl
    · exact Or.inl rfl
    · exact Or.inr rfl
  · obtain rfl := List.mem_singleton.1 hs
    trivial

private theorem alike_brokenRun (v w : ℚ) : List.Forall₂ (AlikeStep nasCpu) (brokenRun v) (brokenRun w) := by
  have hne : (nasCpu.1, broken) ≠ nasCpu := by decide +kernel
  refine .cons (.call 0 (.add _ _ _ ?_)) (.cons (.same _) .nil)
  rw [entries_broken, entries_broken]
  exact .cons ⟨rfl, rfl, fun _ => rfl⟩ (.cons ⟨rfl, rfl, fun h => absurd h hne⟩ .nil)

private theorem written_brokenRun :
    (nasCpu.1, js "cpu") ∈ (afterBroken 7).written ∧ (nasCpu.1, broken) ∈ (afterBroken 7).written := by
  decide +kernel

/-- A broken name beside `cpu`: two files, both names listed after a start, and a query of `cpu` does not see the disk. -/
theorem broken_name_apart :
    fileOf hashes (js "cpu") ≠ fileOf hashes broken ∧
      (∃ names, (afterBroken 7).restart.series nasCpu.1 = some names ∧ js "cpu" ∈ names ∧ broken ∈ names) ∧
      (afterBroken 7).history.query hashes nasCpu .h1 60000 = (afterBroken 90).history.query hashes nasCpu .h1 60000 := by
  have hne : js "cpu" ≠ broken := by decide +kernel
  obtain ⟨hapart, -, hruns⟩ := names_apart id hexDigest_hashes 600 brokenNames injOn_hashes
  obtain ⟨-, hlisted, hquery⟩ := hruns (brokenRun 7) (gives_brokenRun 7)
  obtain ⟨names, hnames, hmem⟩ := hlisted nasCpu.1
  exact ⟨hapart _ (Or.inl rfl) _ (Or.inr rfl) hne,
    ⟨names, hnames, (hmem _).2 written_brokenRun.1, (hmem _).2 written_brokenRun.2⟩,
    (hquery nasCpu (Or.inl rfl) .h1 60000).2 _ (alike_brokenRun 7 90)⟩

end Named

end Servitals
