import Servitals.HistoryRings

/-!
# One series of the history

While a node has no more series than it may have, and no two of its series share a file, each series lives for itself:
its minute in progress and its file go through the values added to it and the flushes (`series_run`), whatever is added
to the others.  So what a query answers about a series is a matter of that series alone (`query_eq`).
-/

namespace Servitals

/-- A series: its minute in progress, and its file. -/
structure Series where
  cur : Option Cur
  file : Option RingFile

/-- What happens to a series: a value is added in a minute, everything is flushed in one, or the process starts again. -/
inductive SeriesEvent
  | value (minute : ℤ) (v : ℚ)
  | flush (minute : ℤ)
  | restart

namespace Series

section

variable (f32 : ℚ → ℚ) (shape : Shape)

/-- The minute in progress is written. -/
def close (s : Series) (c : Cur) : Series :=
  { s with file := RingFile.writeAll s.file (RingFile.minuteWrites f32 s.file shape c.minute c.point) }

def apply (s : Series) : SeriesEvent → Series
  | .value minute v => match s.cur with
    | some c =>
      if c.minute = minute then { s with cur := some (c.push v) }
      else { s.close f32 shape c with cur := some (.first minute v) }
    | none => { s with cur := some (.first minute v) }
  | .flush minute => match s.cur with
    | some c => if c.minute < minute then { s.close f32 shape c with cur := none } else s.close f32 shape c
    | none => s
  | .restart => { s with cur := none }

end

/-- The point of the series at an index of a tier. -/
def pointAt (shape : Shape) (s : Series) (t : Tier) (i : ℤ) : Option Point :=
  match s.cur.filter fun c => t = .minute && c.minute = i with
  | some c => some (shape.point c.point)
  | none => (s.file.filter fun f => f.shape = shape).bind fun f => (f.rings t).shown t.len i

end Series

namespace History

/-- What a step does to a series. -/
def eventsOf (key : SeriesKey) (s : HistoryStep) : List SeriesEvent :=
  match s.op with
  | .add node values => values.entries.filterMap fun e =>
      if (node, e.1) = key then e.2.map (.value ((s.time : ℤ) / MIN)) else none
  | .flush => [.flush ((s.time : ℤ) / MIN)]
  | .restart | .cutAdd _ _ _ _ | .cutFlush _ _ => [.restart]

/-- Is the step an add, a flush or a start? -/
def calls (s : HistoryStep) : Bool :=
  match s.op with
  | .add _ _ | .flush | .restart => true
  | _ => false

/-- The series that a step adds to. -/
def AddsTo (K : Finset SeriesKey) (s : HistoryStep) : Prop :=
  match s.op with
  | .add node values => ∀ e ∈ values.entries, (node, e.1) ∈ K
  | _ => True

variable (digest : JsString → JsString) in
/-- A series of the history. -/
def series (h : History) (key : SeriesKey) : Series := ⟨h.opened.get? key, h.files.get? (fileKey digest key)⟩

/-- No node has more series than it may have, and different series have different files. -/
structure Roomy (digest : JsString → JsString) (maxSeries : ℕ) (K : Finset SeriesKey) : Prop where
  files : Set.InjOn (fileKey digest) (K : Set SeriesKey)
  cap : ∀ node, (K.filter fun key => key.1 = node).card ≤ maxSeries

/-- The open minutes and the files are of the series of `K`. -/
structure Within (digest : JsString → JsString) (K : Finset SeriesKey) (h : History) : Prop where
  opened : ∀ key c, h.opened.get? key = some c → key ∈ K
  files : ∀ k f, h.files.get? k = some f → ∃ key ∈ K, k = fileKey digest key

variable {f32 : ℚ → ℚ} {digest : JsString → JsString} {maxSeries : ℕ} {K : Finset SeriesKey} {h : History}

/-- Every series of `K` is admitted. -/
theorem Roomy.admits (hK : Roomy digest maxSeries K) (hw : h.Within digest K) {key : SeriesKey} (hk : key ∈ K) :
    h.admits digest maxSeries key = true := by
  unfold History.admits
  rw [Bool.or_eq_true, or_iff_not_imp_left]
  intro hnone
  set keys := (h.files.entries.filter fun e => e.1.1 = key.1).map Prod.fst with hkeys
  have hnodup : keys.Nodup := h.files.nodup.sublist (List.filter_sublist.map Prod.fst)
  have hsub : keys.toFinset ⊆ ((K.filter fun k => k.1 = key.1).erase key).image (fileKey digest) := by
    intro k hmem
    rw [List.mem_toFinset, hkeys, List.mem_map] at hmem
    obtain ⟨e, he, rfl⟩ := hmem
    obtain ⟨hin, hnode⟩ := List.mem_filter.1 he
    have hget : h.files.get? e.1 = some e.2 := OMap.mem_entries_iff.1 hin
    obtain ⟨key', hk', heq⟩ := hw.files _ _ hget
    refine Finset.mem_image.2 ⟨key', Finset.mem_erase.2 ⟨?_, Finset.mem_filter.2 ⟨hk', ?_⟩⟩, heq.symm⟩
    · rintro rfl
      exact hnone (OMap.contains_iff.2 ⟨e.2, heq ▸ hget⟩)
    · rw [of_decide_eq_true hnode |>.symm, heq]
      rfl
  have hlen : keys.length < maxSeries := by
    calc keys.length = keys.toFinset.card := (List.toFinset_card_of_nodup hnodup).symm
      _ ≤ _ := Finset.card_le_card hsub
      _ ≤ ((K.filter fun k => k.1 = key.1).erase key).card := Finset.card_image_le
      _ < (K.filter fun k => k.1 = key.1).card :=
        Finset.card_erase_lt_of_mem (Finset.mem_filter.2 ⟨hk, rfl⟩)
      _ ≤ maxSeries := hK.cap key.1
  rw [hkeys, List.length_map] at hlen
  exact decide_eq_true hlen

/-! ### The steps -/

theorem Within.withOpened (hw : h.Within digest K) {opened : OMap SeriesKey Cur}
    (ho : ∀ key c, opened.get? key = some c → h.opened.get? key = some c ∨ key ∈ K) :
    Within digest K { h with opened := opened } :=
  ⟨fun key c hc => (ho key c hc).elim (hw.opened key c) id, hw.files⟩

variable (f32) in
/-- An open minute that is written changes the file of its series. -/
private theorem series_close (hK : Roomy digest maxSeries K) (hw : h.Within digest K) {key : SeriesKey} (hk : key ∈ K)
    (c : Cur) :
    (h.close f32 digest maxSeries key c).Within digest K ∧
      (h.close f32 digest maxSeries key c).series digest key =
        (h.series digest key).close f32 (shapeOf key.2) c := by
  obtain ⟨hopened, -, -, hfiles⟩ := h.onDisk_spec digest key (h.writes f32 digest maxSeries key c)
  have hwrites : h.writes f32 digest maxSeries key c =
      RingFile.minuteWrites f32 (h.files.get? (fileKey digest key)) (shapeOf key.2) c.minute c.point :=
    if_pos (hK.admits hw hk)
  refine ⟨⟨fun key' c' hc => hw.opened key' c' (hopened ▸ hc), fun k f hf => ?_⟩, ?_⟩
  · rw [History.close, hfiles] at hf
    split at hf
    · rename_i hkey
      exact ⟨key, hk, hkey⟩
    · exact hw.files k f hf
  · rw [series, History.close, hopened, hfiles, if_pos rfl, hwrites]
    rfl

variable (f32) in
/-- A value added to a series changes that series, and no other. -/
private theorem series_addOne (hK : Roomy digest maxSeries K) (hw : h.Within digest K) {key : SeriesKey}
    (hk : key ∈ K) (v : ℚ)
    (t : ℕ) :
    (h.addOne f32 digest maxSeries key v t).Within digest K ∧
      (h.addOne f32 digest maxSeries key v t).series digest key =
        (h.series digest key).apply f32 (shapeOf key.2) (.value ((t : ℤ) / MIN) v) := by
  set h' : History := { h with added := h.added ++ [⟨key, (t : ℤ) / MIN, v⟩] } with hh'
  have hw' : h'.Within digest K := ⟨hw.opened, hw.files⟩
  have hset : ∀ (g : History), g.Within digest K → ∀ c,
      Within digest K { g with opened := g.opened.set key c } ∧
        series digest { g with opened := g.opened.set key c } key = { g.series digest key with cur := some c } := by
    intro g hg c
    refine ⟨hg.withOpened fun k c' hc => ?_, ?_⟩
    · rw [OMap.get?_set] at hc
      split at hc
      · rename_i hkey
        exact Or.inr (hkey ▸ hk)
      · exact Or.inl hc
    · rw [series, series, OMap.get?_set_self]
  have hcur : (h.series digest key).cur = h.opened.get? key := rfl
  unfold History.addOne Series.apply
  dsimp only
  rw [← hh', hcur, show h'.opened = h.opened from rfl]
  cases hget : h.opened.get? key with
  | some c =>
    dsimp only
    split
    · exact hset h' hw' _
    · obtain ⟨hwc, hseries⟩ := series_close f32 hK hw' hk c
      rw [if_pos (hK.admits hwc hk)]
      obtain ⟨hws, hsame⟩ := hset _ hwc (.first ((t : ℤ) / MIN) v)
      refine ⟨hws, ?_⟩
      rw [hsame, hseries]
      rfl
  | none =>
    dsimp only
    rw [if_pos (hK.admits hw' hk)]
    exact hset h' hw' _

private theorem series_of_frame {h' : History} {key : SeriesKey} (ho : h'.opened.get? key = h.opened.get? key)
    (hf : h'.files.get? (fileKey digest key) = h.files.get? (fileKey digest key)) :
    h'.series digest key = h.series digest key := by
  rw [series, series, ho, hf]

/-- Two series of `K` have different files. -/
private theorem Roomy.fileKey_ne (hK : Roomy digest maxSeries K) {key key' : SeriesKey} (hk : key ∈ K) (hk' : key' ∈ K)
    (hne : key' ≠ key) : fileKey digest key' ≠ fileKey digest key := fun heq => hne (hK.files hk' hk heq)

variable (f32) in
/-- The entries of an add, each on its own series. -/
private theorem series_addEntries (hK : Roomy digest maxSeries K) {t : ℕ} {node : NodeId}
    {es : List (JsString × Option ℚ)}
    (hes : ∀ e ∈ es, (node, e.1) ∈ K) (hw : h.Within digest K) :
    (es.foldl (addEntry f32 digest maxSeries node t) h).Within digest K ∧ ∀ key ∈ K,
      (es.foldl (addEntry f32 digest maxSeries node t) h).series digest key =
        (es.filterMap fun e => if (node, e.1) = key then e.2.map (SeriesEvent.value ((t : ℤ) / MIN)) else none).foldl
          (Series.apply f32 (shapeOf key.2)) (h.series digest key) := by
  induction es generalizing h with
  | nil => exact ⟨hw, fun _ _ => rfl⟩
  | cons e es ih =>
    have hk := hes e List.mem_cons_self
    have hstep : (addEntry f32 digest maxSeries node t h e).Within digest K ∧ ∀ key ∈ K,
        (addEntry f32 digest maxSeries node t h e).series digest key =
          (if (node, e.1) = key then e.2.map (SeriesEvent.value ((t : ℤ) / MIN)) else none).toList.foldl
            (Series.apply f32 (shapeOf key.2)) (h.series digest key) := by
      cases hv : e.2 with
      | none =>
        rw [show addEntry f32 digest maxSeries node t h e = h by rw [addEntry, hv]]
        refine ⟨hw, fun key _ => ?_⟩
        rw [Option.map_none, ite_self]
        rfl
      | some v =>
        obtain ⟨hwa, hseries⟩ := series_addOne f32 hK hw hk v t
        rw [show addEntry f32 digest maxSeries node t h e = h.addOne f32 digest maxSeries (node, e.1) v t by
          rw [addEntry, hv]]
        refine ⟨hwa, fun key hkey => ?_⟩
        split
        · rename_i heq
          rw [← heq]
          exact hseries
        · rename_i hne
          obtain ⟨hopened, hfiles⟩ := addOne_frame f32 digest maxSeries (h := h) (node, e.1) v t
          exact series_of_frame (hopened key (Ne.symm hne)) (hfiles _ (hK.fileKey_ne hk hkey (Ne.symm hne)))
    rw [List.foldl_cons]
    obtain ⟨hwr, hrest⟩ := ih (fun e' he' => hes e' (List.mem_cons_of_mem e he')) hstep.1
    refine ⟨hwr, fun key hkey => ?_⟩
    rw [hrest key hkey, hstep.2 key hkey, List.filterMap_cons]
    cases (if (node, e.1) = key then e.2.map (SeriesEvent.value ((t : ℤ) / MIN)) else none) <;> rfl

variable (f32) in
/-- The open minutes of a flush, each of its own series. -/
private theorem series_flushEntries (hK : Roomy digest maxSeries K) {t : ℕ} {es : List (SeriesKey × Cur)}
    (hnodup : (es.map Prod.fst).Nodup) (hopened : ∀ e ∈ es, h.opened.get? e.1 = some e.2) (hw : h.Within digest K) :
    (es.foldl (flushOne f32 digest maxSeries t) h).Within digest K ∧ ∀ key ∈ K,
      (es.foldl (flushOne f32 digest maxSeries t) h).series digest key =
        if key ∈ es.map Prod.fst then (h.series digest key).apply f32 (shapeOf key.2) (.flush ((t : ℤ) / MIN))
        else h.series digest key := by
  induction es generalizing h with
  | nil => exact ⟨hw, fun _ _ => rfl⟩
  | cons e es ih =>
    rw [List.map_cons, List.nodup_cons] at hnodup
    have hc := hopened e List.mem_cons_self
    have hk : e.1 ∈ K := hw.opened e.1 e.2 hc
    obtain ⟨hframe, hfiles⟩ := flushOne_frame f32 digest maxSeries (h := h) t e
    have hother : ∀ key ∈ K, key ≠ e.1 →
        (flushOne f32 digest maxSeries t h e).series digest key = h.series digest key := fun key hkey hne =>
      series_of_frame (hframe key hne) (hfiles _ (hK.fileKey_ne hk hkey hne))
    have hself : (flushOne f32 digest maxSeries t h e).Within digest K ∧
        (flushOne f32 digest maxSeries t h e).series digest e.1 =
          (h.series digest e.1).apply f32 (shapeOf e.1.2) (.flush ((t : ℤ) / MIN)) := by
      obtain ⟨hwc, hseries⟩ := series_close f32 hK hw hk e.2
      have hcur : (h.series digest e.1).cur = some e.2 := hc
      unfold flushOne Series.apply
      dsimp only
      rw [hcur]
      dsimp only
      split
      · refine ⟨hwc.withOpened fun k c hc => Or.inl ?_, ?_⟩
        · rw [OMap.get?_erase] at hc
          split at hc
          · cases hc
          · exact hc
        · rw [← hseries, series, series, OMap.get?_erase_self]
      · exact ⟨hwc, hseries⟩
    have hopened' : ∀ e' ∈ es, (flushOne f32 digest maxSeries t h e).opened.get? e'.1 = some e'.2 := by
      intro e' he'
      rw [hframe e'.1 fun heq => hnodup.1 (heq ▸ List.mem_map_of_mem he')]
      exact hopened e' (List.mem_cons_of_mem e he')
    rw [List.foldl_cons]
    obtain ⟨hwr, hrest⟩ := ih hnodup.2 hopened' hself.1
    refine ⟨hwr, fun key hkey => ?_⟩
    rw [hrest key hkey]
    by_cases heq : key = e.1
    · subst heq
      rw [if_neg hnodup.1, List.map_cons, if_pos List.mem_cons_self, hself.2]
    · rw [hother key hkey heq]
      simp only [List.map_cons, List.mem_cons, heq, false_or]

variable (f32) in
/-- A step acts on each series by its own events. -/
theorem series_step (hK : Roomy digest maxSeries K) (hw : h.Within digest K) {s : HistoryStep} (hcalls : calls s = true)
    (hs : AddsTo K s) :
    (h.step f32 digest maxSeries s).Within digest K ∧ ∀ key ∈ K, (h.step f32 digest maxSeries s).series digest key =
      (eventsOf key s).foldl (Series.apply f32 (shapeOf key.2)) (h.series digest key) := by
  obtain ⟨t, op⟩ := s
  suffices heff : (h.effect f32 digest maxSeries t op).Within digest K ∧ ∀ key ∈ K,
      (h.effect f32 digest maxSeries t op).series digest key =
        (eventsOf key ⟨t, op⟩).foldl (Series.apply f32 (shapeOf key.2)) (h.series digest key) from
    ⟨⟨heff.1.opened, heff.1.files⟩, heff.2⟩
  cases op with
  | add node values => exact series_addEntries f32 hK hs hw
  | flush =>
    obtain ⟨hwf, hseries⟩ := series_flushEntries f32 hK (t := t) h.opened.nodup
      (fun e he => OMap.mem_entries_iff.1 he) hw
    refine ⟨hwf, fun key hkey => (hseries key hkey).trans ?_⟩
    split
    · rfl
    · rename_i hnot
      have hnone : (h.series digest key).cur = none := by
        cases hc : h.opened.get? key with
        | none => exact hc
        | some c => exact absurd (OMap.mem_keys_iff.2 ⟨c, hc⟩) hnot
      simp only [eventsOf, List.foldl_cons, List.foldl_nil, Series.apply, hnone]
  | restart => exact ⟨hw.withOpened fun k c hc => (by cases hc), fun key _ => rfl⟩
  | cutAdd => cases hcalls
  | cutFlush => cases hcalls

variable (f32) in
/-- A run acts on each series by the events of that series. -/
theorem series_run (hK : Roomy digest maxSeries K) {steps : List HistoryStep}
    (hsteps : ∀ s ∈ steps, calls s = true ∧ AddsTo K s) (hw : h.Within digest K) :
    (Runs.run (step f32 digest maxSeries) h steps).Within digest K ∧ ∀ key ∈ K,
      (Runs.run (step f32 digest maxSeries) h steps).series digest key =
        (steps.flatMap (eventsOf key)).foldl (Series.apply f32 (shapeOf key.2)) (h.series digest key) := by
  induction steps generalizing h with
  | nil => exact ⟨hw, fun _ _ => rfl⟩
  | cons s steps ih =>
    obtain ⟨hcalls, hs⟩ := hsteps s List.mem_cons_self
    obtain ⟨hw', hstep⟩ := series_step f32 hK hw hcalls hs
    obtain ⟨hwr, hrest⟩ := ih (fun s' hs' => hsteps s' (List.mem_cons_of_mem s hs')) hw'
    refine ⟨hwr, fun key hkey => ?_⟩
    rw [Runs.run_cons, hrest key hkey, hstep key hkey, List.flatMap_cons, List.foldl_append]

theorem within_empty (digest : JsString → JsString) (K : Finset SeriesKey) : empty.Within digest K :=
  ⟨fun key c hc => (by cases hc), fun k f hf => (by cases hf)⟩

/-- What a query answers is a matter of the series. -/
theorem query_eq (h : History) (key : SeriesKey) (range : Range) (t : ℕ) :
    h.query digest key range t =
      if !(shapeOf key.2).keeps range.tier then none
      else if ((h.series digest key).file.filter fun f => f.shape = shapeOf key.2).isNone &&
        (h.series digest key).cur.isNone then none
      else some ⟨range.tier.step * 60, (window range t).map fun i =>
        (i * range.tier.step * 60, ((h.series digest key).pointAt (shapeOf key.2) range.tier i).map Point.rounded)⟩ :=
  rfl

end History

end Servitals
