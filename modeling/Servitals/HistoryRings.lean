import Servitals.History
import Servitals.Lib.Runs

/-!
# The rings of the history

What a minute's writes do to the rings of a file: each tier gets its point at the index of the minute, and a process
that is stopped in between has made the first writes of each tier (`writeAll_putMinute_take`).

Under any clock, each slot of a ring holds no value or the one last written for the only index of the last turn that
has the slot, so a query shows nothing at an index that was not written for it (`slots_of_last_turn`).  The clock is one
whose minutes fit the header: a later minute's point is written and its header is not, so the point is taken for that of
an earlier index (`minute_past_the_header`).
-/

namespace Servitals

namespace RingFile

/-- Writes to one ring. -/
private theorem writeAll_ring (f : RingFile) (t : Tier) (ws : List (SlotRing.Write Point)) :
    writeAll (some f) (ws.map (.ring t)) =
      some { f with rings := Function.update f.rings t ((f.rings t).writeAll t.len ws) } := by
  induction ws generalizing f with
  | nil => simp [writeAll, SlotRing.writeAll]
  | cons w ws ih =>
    have h := ih { f with rings := Function.update f.rings t ((f.rings t).write t.len w) }
    dsimp only at h
    rw [Function.update_self, Function.update_idem] at h
    exact h

theorem writeAll_append (f : Option RingFile) (ws vs : List FileWrite) :
    writeAll f (ws ++ vs) = writeAll (writeAll f ws) vs :=
  List.foldl_append

/-- No write takes a file away. -/
theorem writeAll_ne_none (f : RingFile) (ws : List FileWrite) : writeAll (some f) ws ≠ none := by
  induction ws generalizing f with
  | nil => exact Option.some_ne_none f
  | cons w ws ih => cases w <;> exact ih _

/-- The writes of some tiers, stopped after some of them: each tier has had the first of its own. -/
theorem writeAll_tiers_take (ws : Tier → List (SlotRing.Write Point)) {ts : List Tier} (hts : ts.Nodup)
    (f : RingFile) (k : ℕ) :
    ∃ ks : Tier → ℕ, (∀ t ∉ ts, ks t = 0) ∧
      writeAll (some f) ((ts.flatMap fun t => (ws t).map (.ring t)).take k) =
        some ⟨f.shape, fun t => (f.rings t).writeAll t.len ((ws t).take (ks t))⟩ := by
  induction ts generalizing f k with
  | nil => exact ⟨fun _ => 0, fun _ _ => rfl, by simp [writeAll, SlotRing.writeAll]⟩
  | cons t ts ih =>
    obtain ⟨hnot, hnodup⟩ := List.nodup_cons.1 hts
    set f' : RingFile := { f with rings := Function.update f.rings t ((f.rings t).writeAll t.len ((ws t).take k)) }
      with hf'
    obtain ⟨ks, hzero, hall⟩ := ih hnodup f' (k - (ws t).length)
    refine ⟨Function.update ks t k, fun u hu => ?_, ?_⟩
    · rw [List.mem_cons, not_or] at hu
      rw [Function.update_of_ne hu.1, hzero u hu.2]
    · rw [List.flatMap_cons, List.take_append, List.length_map, writeAll_append, ← List.map_take, writeAll_ring, ← hf',
        hall]
      congr 2
      funext u
      by_cases hu : u = t
      · subst hu
        rw [hzero u hnot, hf', Function.update_self, List.take_zero]
        dsimp only
        rw [Function.update_self]
        rfl
      · rw [Function.update_of_ne hu, hf']
        dsimp only
        rw [Function.update_of_ne hu]

/-- The writes of some tiers: each has had its own. -/
theorem writeAll_tiers (ws : Tier → List (SlotRing.Write Point)) {ts : List Tier} (hts : ts.Nodup) (f : RingFile) :
    writeAll (some f) (ts.flatMap fun t => (ws t).map (.ring t)) =
      some ⟨f.shape, fun t => if t ∈ ts then (f.rings t).writeAll t.len (ws t) else f.rings t⟩ := by
  induction ts generalizing f with
  | nil => simp [writeAll]
  | cons t ts ih =>
    obtain ⟨hnot, hnodup⟩ := List.nodup_cons.1 hts
    rw [List.flatMap_cons, writeAll_append, writeAll_ring, ih hnodup]
    congr 2
    funext u
    by_cases hu : u = t
    · subst hu
      simp [hnot]
    · simp [hu]

private theorem nodup_tiers (s : Shape) : (Tier.minute :: s.rolled).Nodup := by cases s <;> decide

/-! ### What values make -/

/-- The point of one value. -/
def ofValue (v : ℚ) : Point := ⟨v, v, v⟩

/-- The average, the lowest and the highest of some values. -/
def ofValues (vs : List ℚ) : Option Point := roll (vs.map ofValue)

private theorem foldl_push (vs : List ℚ) (c : Cur) :
    vs.foldl Cur.push c = ⟨c.minute, c.sum + vs.sum, c.n + vs.length, vs.foldl min c.lo, vs.foldl max c.hi⟩ := by
  induction vs generalizing c with
  | nil => simp
  | cons v vs ih =>
    rw [List.foldl_cons, ih]
    simp only [Cur.push, List.sum_cons, List.length_cons, List.foldl_cons, Cur.mk.injEq, true_and, and_true]
    exact ⟨by ring, by omega⟩

/-- The minute in progress is the point of its values. -/
theorem ofValues_foldl (v : ℚ) (vs : List ℚ) (m : ℤ) :
    ofValues (v :: vs) = some (vs.foldl Cur.push (.first m v)).point := by
  have hmap : ∀ g : Point → ℚ, (∀ u, g (ofValue u) = u) → (vs.map ofValue).map g = vs := by
    intro g hg
    rw [List.map_map]
    exact (List.map_congr_left fun u _ => hg u).trans (List.map_id' vs)
  rw [foldl_push]
  simp only [ofValues, roll, Cur.point, Cur.first, List.map_cons, hmap Point.lo (fun _ => rfl),
    hmap Point.hi (fun _ => rfl), hmap Point.avg (fun _ => rfl), List.sum_cons, List.length_cons, List.length_map]
  simp only [ofValue, Option.some.injEq, Point.mk.injEq, and_true]
  push_cast
  rw [add_comm (1 : ℚ)]

/-! ### The writes of a minute -/

section

variable (f : RingFile) (f32 : ℚ → ℚ) (minute : ℤ) (p : Point)

/-- The file once a minute's point is in its first tier. -/
def afterMinute : RingFile :=
  { f with
    rings := Function.update f.rings .minute
      ((f.rings .minute).put Tier.minute.len fits minute (some (stored f32 f.shape p))) }

/-- The point that a minute puts in a tier. -/
def tierPoint (t : Tier) : Option Point :=
  if t = .minute then some (stored f32 f.shape p)
  else (roll ((f.afterMinute f32 minute p).minutesIn t (t.index minute))).map (stored f32 f.shape)

/-- The writes of a minute to a tier. -/
def tierWrites (t : Tier) : List (SlotRing.Write Point) :=
  SlotRing.putWrites t.len fits (f.rings t) (t.index minute) (f.tierPoint f32 minute p t)

/-- The tiers that a minute is written to: a minute that the header cannot hold stops after the first. -/
def tiersOf : List Tier :=
  .minute :: if ((f.afterMinute f32 minute p).rings .minute).last < minute then [] else f.shape.rolled

theorem index_minute (m : ℤ) : Tier.minute.index m = m := Int.ediv_one m

theorem nodup_tiersOf : (f.tiersOf f32 minute p).Nodup := by
  unfold tiersOf
  split
  · exact List.nodup_singleton _
  · exact nodup_tiers f.shape

/-- The writes of a minute are those of its tiers. -/
theorem putMinute_eq : f.putMinute f32 minute p =
    (f.tiersOf f32 minute p).flatMap fun t => (f.tierWrites f32 minute p t).map (.ring t) := by
  have hmin : (f.tierWrites f32 minute p .minute).map (.ring .minute) =
      f.put .minute minute (some (stored f32 f.shape p)) := by
    rw [tierWrites, index_minute, tierPoint, if_pos rfl]
    rfl
  have hafter : writeAll (some f) (f.put .minute minute (some (stored f32 f.shape p))) =
      some (f.afterMinute f32 minute p) := writeAll_ring f .minute _
  unfold putMinute tiersOf
  dsimp only
  rw [hafter, List.flatMap_cons, hmin]
  dsimp only
  split
  · rw [List.flatMap_nil, List.append_nil]
  · congr 1
    refine List.flatMap_congr fun t ht => ?_
    have hne : t ≠ .minute := by
      rintro rfl
      revert ht
      cases f.shape <;> decide
    rw [tierWrites, tierPoint, if_neg hne, put]

end

/-! ### Stamped files -/

/-- Each slot of each tier is empty or holds what was last written at its index of the last turn. -/
def Stamps (f : RingFile) : Prop :=
  ∀ t, SlotRing.Stamped t.len (f.rings t) ((f.rings t).last - t.len) (f.rings t).last ∧ -1 ≤ (f.rings t).last

private theorem stamps_fresh (shape : Shape) : (fresh shape).Stamps := fun _ => ⟨SlotRing.stamped_fresh _ _ _, le_rfl⟩

theorem index_nonneg (t : Tier) {m : ℤ} (hm : 0 ≤ m) : 0 ≤ t.index m := Int.ediv_nonneg hm t.step_pos.le

theorem fits_index (t : Tier) {m : ℤ} (hm : 0 ≤ m) (hlt : m < 2 ^ 31) : fits (t.index m) = true := by
  have h : t.index m ≤ m := Int.ediv_le_self _ hm
  simp only [fits, decide_eq_true_eq]
  omega

theorem index_mono (t : Tier) {m n : ℤ} (h : m ≤ n) : t.index m ≤ t.index n := Int.ediv_le_ediv t.step_pos h

/-- The minutes of a bucket. -/
theorem index_bucket (t : Tier) (b : ℤ) {k : ℕ} (hk : k < t.step.toNat) : t.index (b * t.step + k) = b := by
  have hstep := t.step_pos
  rw [Tier.index, add_comm, Int.add_mul_ediv_right _ _ hstep.ne', Int.ediv_eq_zero_of_lt (by omega) (by omega), zero_add]

/-- The bucket of a minute starts less than a bucket before it. -/
theorem lt_bucket (t : Tier) (m : ℤ) : m - t.step < t.index m * t.step := by
  have h := Int.lt_ediv_add_one_mul_self m t.step_pos
  rw [add_mul, one_mul] at h
  exact sub_lt_iff_lt_add.2 h

variable (f32 : ℚ → ℚ) in
theorem Stamps.putMinute {f : RingFile} (h : f.Stamps) {minute : ℤ} (hm : 0 ≤ minute) (hfit : minute < 2 ^ 31)
    (p : Point) : ∃ f', writeAll (some f) (f.putMinute f32 minute p) = some f' ∧ f'.Stamps ∧ f'.shape = f.shape := by
  rw [putMinute_eq, writeAll_tiers _ (f.nodup_tiersOf f32 minute p)]
  refine ⟨_, rfl, fun t => ?_, rfl⟩
  dsimp only
  split
  · exact (h t).1.put t.len_pos (fits_index t hm hfit) (h t).2 (index_nonneg t hm) _
  · exact h t

variable (f32 : ℚ → ℚ) in
private theorem stamps_minuteWrites {f : Option RingFile} (h : ∀ g ∈ f, g.Stamps) (shape : Shape) {minute : ℤ}
    (hm : 0 ≤ minute) (hfit : minute < 2 ^ 31) (p : Point) :
    ∃ f', writeAll f (minuteWrites f32 f shape minute p) = some f' ∧ f'.Stamps := by
  unfold minuteWrites
  split
  · rename_i g hg
    obtain ⟨rfl, -⟩ := Option.filter_eq_some_iff.1 hg
    obtain ⟨f', hf', hstamps, -⟩ := (h g rfl).putMinute f32 hm hfit p
    exact ⟨f', hf', hstamps⟩
  · obtain ⟨f', hf', hstamps, -⟩ := (stamps_fresh shape).putMinute f32 hm hfit p
    exact ⟨f', hf', hstamps⟩

end RingFile

namespace History

/-! ### Any clock -/

/-- The files are stamped, and the open minutes fit their headers. -/
structure Stamped (h : History) : Prop where
  files : ∀ k f, h.files.get? k = some f → f.Stamps
  opened : ∀ key c, h.opened.get? key = some c → 0 ≤ c.minute ∧ c.minute < 2 ^ 31

variable (f32 : ℚ → ℚ) (digest : JsString → JsString) (maxSeries : ℕ) {h : History}

/-- Writing to a file leaves everything else. -/
theorem onDisk_spec (h : History) (key : SeriesKey) (ws : List FileWrite) :
    (h.onDisk digest key ws).opened = h.opened ∧ (h.onDisk digest key ws).added = h.added ∧
      (h.onDisk digest key ws).clock = h.clock ∧ ∀ k, (h.onDisk digest key ws).files.get? k =
        if k = fileKey digest key then RingFile.writeAll (h.files.get? k) ws else h.files.get? k := by
  unfold onDisk
  split
  · rename_i f hf
    refine ⟨rfl, rfl, rfl, fun k => ?_⟩
    dsimp only
    rw [OMap.get?_set]
    split
    · rename_i hk
      rw [hk, hf]
    · rfl
  · rename_i hf
    refine ⟨rfl, rfl, rfl, fun k => ?_⟩
    split
    · rename_i hk
      rw [hk, hf]
      cases hg : h.files.get? (fileKey digest key) with
      | none => rfl
      | some g =>
        rw [hg] at hf
        exact absurd hf (RingFile.writeAll_ne_none g ws)
    · rfl

/-- An `add` of one value touches its own series only. -/
theorem addOne_frame (key : SeriesKey) (v : ℚ) (t : ℕ) :
    (∀ k, k ≠ key → (h.addOne f32 digest maxSeries key v t).opened.get? k = h.opened.get? k) ∧
      ∀ k, k ≠ fileKey digest key → (h.addOne f32 digest maxSeries key v t).files.get? k = h.files.get? k := by
  obtain ⟨opened, files, added, clock⟩ := h
  unfold History.addOne
  dsimp only
  split
  · rename_i cur hcur
    split
    · exact ⟨fun k hk => OMap.get?_set_of_ne _ hk _, fun k _ => rfl⟩
    · set h' : History := ⟨opened, files, added ++ [⟨key, (t : ℤ) / MIN, v⟩], clock⟩
      obtain ⟨hopened, -, -, hfiles⟩ := h'.onDisk_spec digest key (h'.writes f32 digest maxSeries key cur)
      have hclose : ∀ k, k ≠ fileKey digest key →
          (h'.close f32 digest maxSeries key cur).files.get? k = h'.files.get? k := fun k hk => by
        rw [History.close, hfiles, if_neg hk]
      split
      · refine ⟨fun k hk => ?_, hclose⟩
        dsimp only
        rw [OMap.get?_set_of_ne _ hk, History.close, hopened]
      · exact ⟨fun k _ => by rw [History.close, hopened], hclose⟩
  · split
    · exact ⟨fun k hk => OMap.get?_set_of_ne _ hk _, fun k _ => rfl⟩
    · exact ⟨fun k _ => rfl, fun k _ => rfl⟩

/-- A flush of one open minute touches its own series only. -/
theorem flushOne_frame (t : ℕ) (e : SeriesKey × Cur) :
    (∀ k, k ≠ e.1 → (flushOne f32 digest maxSeries t h e).opened.get? k = h.opened.get? k) ∧
      ∀ k, k ≠ fileKey digest e.1 → (flushOne f32 digest maxSeries t h e).files.get? k = h.files.get? k := by
  obtain ⟨hopened, -, -, hfiles⟩ := h.onDisk_spec digest e.1 (h.writes f32 digest maxSeries e.1 e.2)
  have hclose : ∀ k, k ≠ fileKey digest e.1 →
      (h.close f32 digest maxSeries e.1 e.2).files.get? k = h.files.get? k := fun k hk => by
    rw [History.close, hfiles, if_neg hk]
  unfold flushOne
  dsimp only
  split
  · refine ⟨fun k hk => ?_, hclose⟩
    dsimp only
    rw [OMap.get?_erase_of_ne _ hk, History.close, hopened]
  · exact ⟨fun k _ => by rw [History.close, hopened], hclose⟩

theorem Stamped.close (hs : h.Stamped) (key : SeriesKey) {c : Cur} (hc : 0 ≤ c.minute ∧ c.minute < 2 ^ 31) :
    (h.close f32 digest maxSeries key c).Stamped := by
  obtain ⟨hopened, -, -, hfiles⟩ := h.onDisk_spec digest key (h.writes f32 digest maxSeries key c)
  refine ⟨fun k f hk => ?_, fun k' c' hk' => hs.opened k' c' (hopened ▸ hk')⟩
  rw [History.close, hfiles] at hk
  split at hk
  · unfold writes at hk
    split at hk
    · obtain ⟨f', hf', hstamps⟩ := RingFile.stamps_minuteWrites f32 (f := h.files.get? (fileKey digest key))
        (fun g hg => hs.files _ g hg) (shapeOf key.2) hc.1 hc.2 c.point
      rename_i hkey _
      rw [hkey, hf'] at hk
      exact Option.some.inj hk ▸ hstamps
    · exact hs.files k f hk
  · exact hs.files k f hk

/-- The open minutes may be set and forgotten. -/
theorem Stamped.withOpened (hs : h.Stamped) {opened : OMap SeriesKey Cur}
    (ho : ∀ key c, opened.get? key = some c → h.opened.get? key = some c ∨ 0 ≤ c.minute ∧ c.minute < 2 ^ 31) :
    Stamped { h with opened := opened } := by
  refine ⟨hs.files, fun key c hc => ?_⟩
  rcases ho key c hc with hold | hnew
  · exact hs.opened key c hold
  · exact hnew

theorem Stamped.setOpened (hs : h.Stamped) (key : SeriesKey) {c : Cur} (hc : 0 ≤ c.minute ∧ c.minute < 2 ^ 31) :
    Stamped { h with opened := h.opened.set key c } := by
  refine hs.withOpened fun k c' hk => ?_
  rw [OMap.get?_set] at hk
  split at hk
  · exact Or.inr (Option.some.inj hk ▸ hc)
  · exact Or.inl hk

/-- A time whose minute the header of a file can hold. -/
def FitsHeader (t : ℕ) : Prop := (t : ℤ) / MIN < 2 ^ 31

instance (t : ℕ) : Decidable (FitsHeader t) := inferInstanceAs (Decidable (_ < _))

theorem Stamped.addOne (hs : h.Stamped) (key : SeriesKey) (v : ℚ) {t : ℕ} (ht : FitsHeader t) :
    (h.addOne f32 digest maxSeries key v t).Stamped := by
  have hnow : 0 ≤ (t : ℤ) / MIN ∧ (t : ℤ) / MIN < 2 ^ 31 := ⟨Int.ediv_nonneg (Int.natCast_nonneg t) (by decide), ht⟩
  have hs' : Stamped { h with added := h.added ++ [⟨key, (t : ℤ) / MIN, v⟩] } := ⟨hs.files, hs.opened⟩
  unfold History.addOne
  dsimp only
  split
  · rename_i cur hcur
    split
    · rename_i hsame
      exact hs'.setOpened key (show 0 ≤ cur.minute ∧ cur.minute < 2 ^ 31 from hs.opened key cur hcur)
    · have hclosed := hs'.close f32 digest maxSeries key (hs.opened key cur hcur)
      split
      · exact hclosed.setOpened key hnow
      · exact hclosed
  · split
    · exact hs'.setOpened key hnow
    · exact hs'

theorem Stamped.add (hs : h.Stamped) (node : NodeId) (values : OMap JsString (Option ℚ)) {t : ℕ}
    (ht : FitsHeader t) : (h.add f32 digest maxSeries node values t).Stamped := by
  unfold History.add
  induction values.entries generalizing h with
  | nil => exact hs
  | cons e es ih =>
    refine ih ?_
    unfold addEntry
    split
    · exact hs.addOne f32 digest maxSeries (node, e.1) _ ht
    · exact hs

theorem Stamped.flush (hs : h.Stamped) (t : ℕ) : (h.flush f32 digest maxSeries t).Stamped := by
  unfold History.flush
  have hall : ∀ e ∈ h.opened.entries, 0 ≤ e.2.minute ∧ e.2.minute < 2 ^ 31 :=
    fun e he => hs.opened e.1 e.2 (OMap.mem_entries_iff.1 he)
  generalize h.opened.entries = es at hall
  induction es generalizing h with
  | nil => exact hs
  | cons e es ih =>
    refine ih ?_ fun e' he' => hall e' (List.mem_cons_of_mem e he')
    have hclosed := hs.close f32 digest maxSeries e.1 (hall e List.mem_cons_self)
    unfold flushOne
    dsimp only
    split
    · refine hclosed.withOpened fun k c hk => Or.inl ?_
      rw [OMap.get?_erase] at hk
      split at hk
      · cases hk
      · exact hk
    · exact hclosed

/-- Is the step one of a process that is not stopped in the middle of a call? -/
def HistoryStep.whole (s : HistoryStep) : Bool :=
  match s.op with
  | .cutAdd _ _ _ _ | .cutFlush _ _ => false
  | _ => true

theorem Stamped.step (hs : h.Stamped) {s : HistoryStep} (hwhole : s.whole = true) (ht : FitsHeader s.time) :
    (h.step f32 digest maxSeries s).Stamped := by
  obtain ⟨t, op⟩ := s
  suffices heff : (h.effect f32 digest maxSeries t op).Stamped from ⟨heff.files, heff.opened⟩
  cases op with
  | add node values => exact hs.add f32 digest maxSeries node values ht
  | flush => exact hs.flush f32 digest maxSeries t
  | restart => exact hs.withOpened fun k c hk => by cases hk
  | cutAdd => cases hwhole
  | cutFlush => cases hwhole

/-! ### What a query shows -/

variable {f32 digest maxSeries}

theorem mem_window {range : Range} {t : ℕ} {i : ℤ} (hi : i ∈ window range t) :
    range.tier.index (t / MIN) - range.count < i ∧ i ≤ range.tier.index (t / MIN) := by
  obtain ⟨k, hk, rfl⟩ := List.mem_map.1 hi
  rw [List.mem_range] at hk
  omega

/-- A point that a query shows is of an index of its range: the minute in progress, or one the file shows. -/
theorem query_spec {key : SeriesKey} {range : Range} {t : ℕ} {a : Answer} (hq : h.query digest key range t = some a)
    {s : ℤ} {p : Point} (hp : (s, some p) ∈ a.points) :
    ∃ i ∈ window range t, s = i * range.tier.step * 60 ∧
      ((range.tier = .minute ∧ ∃ c, h.opened.get? key = some c ∧ c.minute = i ∧
          p = ((shapeOf key.2).point c.point).rounded) ∨
        ∃ f q, h.soundFile digest key = some f ∧ (f.rings range.tier).shown range.tier.len i = some q ∧
          p = q.rounded) := by
  unfold query at hq
  split at hq
  · cases hq
  · split at hq
    · cases hq
    · obtain rfl := Option.some.inj hq
      obtain ⟨i, hi, heq⟩ := List.mem_map.1 hp
      obtain ⟨hs, hpoint⟩ := Prod.mk.inj heq
      refine ⟨i, hi, hs.symm, ?_⟩
      obtain ⟨q, hq', rfl⟩ := Option.map_eq_some_iff.1 hpoint
      unfold pointAt at hq'
      split at hq'
      · rename_i c hc
        obtain ⟨hopened, hcond⟩ := Option.filter_eq_some_iff.1 hc
        rw [Bool.and_eq_true, decide_eq_true_eq, decide_eq_true_eq] at hcond
        exact Or.inl ⟨hcond.1, c, hopened, hcond.2, by rw [← Option.some.inj hq']⟩
      · obtain ⟨f, hf, hshown⟩ := Option.bind_eq_some_iff.1 hq'
        exact Or.inr ⟨f, q, hf, hshown, rfl⟩

theorem files_of_soundFile {key : SeriesKey} {f : RingFile} (hf : h.soundFile digest key = some f) :
    h.files.get? (fileKey digest key) = some f ∧ f.shape = shapeOf key.2 := by
  obtain ⟨hget, hshape⟩ := Option.filter_eq_some_iff.1 hf
  exact ⟨hget, by simpa using hshape⟩

/-- For every sequence of adds, flushes and starts under any clock whose minutes fit the header: each slot of each tier
of a file holds no value or the one last written for an index of the last turn that has the slot, and a query shows at
an index what was last written for it, or the minute in progress. -/
theorem slots_of_last_turn (f32 : ℚ → ℚ) (digest : JsString → JsString) (maxSeries : ℕ) (steps : List HistoryStep)
    (hsteps : ∀ s ∈ steps, s.whole = true ∧ FitsHeader s.time) :
    let h := Runs.run (step f32 digest maxSeries) empty steps
    (∀ k f, h.files.get? k = some f → ∀ (t : Tier) (slot : ℤ), 0 ≤ slot → slot < t.len →
      (f.rings t).slots slot = none ∨ ∃ i, 0 ≤ i ∧ (f.rings t).last - t.len < i ∧ i ≤ (f.rings t).last ∧
        i.tmod t.len = slot ∧ (f.rings t).slots slot = (f.rings t).written i) ∧
    ∀ key range t a, Since1970 range t → h.query digest key range t = some a → ∀ s p, (s, some p) ∈ a.points →
      ∃ i, s = i * range.tier.step * 60 ∧
        ((range.tier = .minute ∧ ∃ c, h.opened.get? key = some c ∧ c.minute = i ∧
            p = ((shapeOf key.2).point c.point).rounded) ∨
          ∃ f q, h.files.get? (fileKey digest key) = some f ∧ (f.rings range.tier).written i = some q ∧
            p = q.rounded) := by
  intro h
  have hempty : empty.Stamped := ⟨fun k f hk => (by cases hk), fun key c hc => (by cases hc)⟩
  have hs : h.Stamped := by
    have hmeets : Runs.Meets (step f32 digest maxSeries) (fun _ s => s.whole = true ∧ FitsHeader s.time) empty steps :=
      Runs.meets_of_forall (p := fun s : HistoryStep => s.whole = true ∧ FitsHeader s.time) hsteps
    exact hmeets.invariant (fun _ s hs hok => hs.step f32 digest maxSeries hok.1 hok.2) hempty
  refine ⟨fun k f hf t slot hslot hlt => (hs.files k f hf t).1 slot hslot hlt, fun key range t a hsince hq s p hp => ?_⟩
  obtain ⟨i, hi, rfl, hmemory | ⟨f, q, hf, hshown, rfl⟩⟩ := query_spec hq hp
  · exact ⟨i, rfl, Or.inl hmemory⟩
  · obtain ⟨hget, -⟩ := files_of_soundFile hf
    have hi0 : 0 ≤ i := by
      have := mem_window hi
      unfold Since1970 at hsince
      omega
    have hturn : (f.rings range.tier).last - range.tier.len < i := by
      unfold SlotRing.shown at hshown
      split at hshown
      · rename_i hc
        exact hc.2.2
      · cases hshown
    refine ⟨i, rfl, Or.inr ⟨f, q, hget, ?_, rfl⟩⟩
    rcases (hs.files _ f hget range.tier).1.shown range.tier.len_pos hi0 hturn with hnone | heq
    · rw [hnone] at hshown
      cases hshown
    · rw [← heq, hshown]

/-! ### Runs of one series -/

/-- The series `cpu` of a node. -/
def nasCpu : SeriesKey := (⟨js "nodeaaaaaaaa", by decide⟩, js "cpu")

/-- An `add` of one value of it in a minute. -/
def cpuAt (minute : ℕ) (v : ℚ) : HistoryStep := ⟨minute * 60000, .add nasCpu.1 (OMap.empty.set nasCpu.2 (some v))⟩

private def jumps : List HistoryStep := [cpuAt 100 1, cpuAt 3000 2, cpuAt 105 5, cpuAt 106 6]

private def afterJumps : History := Runs.run (step id id 600) empty jumps

/-- The clock jumps two days ahead and back again; the minute after the jump is shown at its own time. -/
theorem clock_ahead_and_back :
    ∃ i, (105 * 60 : ℤ) = i * Tier.minute.step * 60 ∧
      ((Tier.minute = .minute ∧ ∃ c, afterJumps.opened.get? nasCpu = some c ∧ c.minute = i ∧
          (⟨5, 5, 5⟩ : Point) = ((shapeOf nasCpu.2).point c.point).rounded) ∨
        ∃ f q, afterJumps.files.get? (fileKey id nasCpu) = some f ∧ (f.rings .minute).written i = some q ∧
          (⟨5, 5, 5⟩ : Point) = q.rounded) := by
  have hshown : (afterJumps.query id nasCpu .h1 (106 * 60000)).any
      (fun a => a.points.contains (105 * 60, some ⟨5, 5, 5⟩)) = true := by decide +kernel
  obtain ⟨a, ha, hmem⟩ := (Option.any_eq_true _ _).1 hshown
  exact (slots_of_last_turn id id 600 jumps (by decide)).2 nasCpu .h1 (106 * 60000) a (by decide) ha _ _
    (List.contains_iff_mem.1 hmem)

/-- A minute past the header's 32 bits is written over an earlier one of its slot, which the header still shows. -/
theorem minute_past_the_header :
    let h := Runs.run (step id id 600) empty [cpuAt 128 1, cpuAt 2147483648 2, cpuAt 2147483649 3]
    (h.files.get? (fileKey id nasCpu)).map (fun f =>
      ((f.rings .minute).last, (f.rings .minute).slots 128, (f.rings .minute).written 128)) =
        some (128, some ⟨2, 2, 2⟩, some ⟨1, 1, 1⟩) ∧
      ((h.query id nasCpu .h1 (128 * 60000)).bind fun a => a.points.getLast?) =
        some (128 * 60, some ⟨2, 2, 2⟩) := by
  decide +kernel

end History

end Servitals
