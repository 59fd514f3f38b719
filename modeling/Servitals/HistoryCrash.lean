import Servitals.HistoryRings

/-!
# The history and crashes

A process may be stopped between any two file writes of a minute, in an add or a flush, and started again.  The clock
does not go back, so the indices are written in order; the invariant (`RingFile.Safe`) bounds what each slot holds by
the header's turn before and the clock after, and a range is never longer than its ring: no query shows an index a point
that was computed from values of another time (`shown_of_own_span`).

There is one exception.  The first point of a tier may be written and its header not; the next write to the tier clears
nothing, and when it comes a whole turn later, the old point is shown at a new index (`first_point_cut_off`).
-/

namespace Servitals

open RingFile (stored ofValues roll)

section

variable (f32 : ℚ → ℚ) (added : List Sample) (key : SeriesKey)

/-- The point is what a file keeps of values added in the minute. -/
def FromMinute (i : ℤ) (q : Point) : Prop :=
  ∃ vs, (∀ v ∈ vs, ⟨key, i, v⟩ ∈ added) ∧ (ofValues vs).map (stored f32 (shapeOf key.2)) = some q

/-- The point is computed from values added in the span of the index: of a minute, or from points of its minutes. -/
def FromSpan (t : Tier) (b : ℤ) (q : Point) : Prop :=
  if t = .minute then FromMinute f32 added key b q
  else ∃ qs, (∀ q' ∈ qs, ∃ i, t.index i = b ∧ FromMinute f32 added key i q') ∧
    (roll qs).map (stored f32 (shapeOf key.2)) = some q

/-- The file of a series whose minutes were written up to `till`, some of them perhaps not to the end. -/
structure RingFile.Safe (till : ℤ) (f : RingFile) : Prop where
  shape : f.shape = shapeOf key.2
  stamped : ∀ t, SlotRing.Stamped t.len (f.rings t) ((f.rings t).last - t.len) (t.index till)
  last_ge : ∀ t, -1 ≤ (f.rings t).last
  last_le : ∀ t, (f.rings t).last ≤ t.index till
  own : ∀ t i q, (f.rings t).written i = some q → FromSpan f32 added key t i q

end

variable {f32 : ℚ → ℚ} {added added' : List Sample} {key : SeriesKey}

theorem FromMinute.mono (h : ∀ s ∈ added, s ∈ added') {i : ℤ} {q : Point} (hq : FromMinute f32 added key i q) :
    FromMinute f32 added' key i q := by
  obtain ⟨vs, hvs, heq⟩ := hq
  exact ⟨vs, fun v hv => h _ (hvs v hv), heq⟩

theorem FromSpan.mono (h : ∀ s ∈ added, s ∈ added') {t : Tier} {b : ℤ} {q : Point}
    (hq : FromSpan f32 added key t b q) : FromSpan f32 added' key t b q := by
  unfold FromSpan at hq ⊢
  split
  · rename_i ht
    rw [if_pos ht] at hq
    exact hq.mono h
  · rename_i ht
    rw [if_neg ht] at hq
    obtain ⟨qs, hqs, heq⟩ := hq
    refine ⟨qs, fun q' hq' => ?_, heq⟩
    obtain ⟨i, hi, hfrom⟩ := hqs q' hq'
    exact ⟨i, hi, hfrom.mono h⟩

namespace RingFile

theorem Safe.mono {till till' : ℤ} {f : RingFile} (hf : f.Safe f32 added key till) (htill : till ≤ till')
    (h : ∀ s ∈ added, s ∈ added') : f.Safe f32 added' key till' where
  shape := hf.shape
  stamped t := (hf.stamped t).mono le_rfl (index_mono t htill)
  last_ge := hf.last_ge
  last_le t := (hf.last_le t).trans (index_mono t htill)
  own t i q hq := (hf.own t i q hq).mono h

private theorem safe_fresh {till : ℤ} (h : 0 ≤ till) : (fresh (shapeOf key.2)).Safe f32 added key till where
  shape := rfl
  stamped t := SlotRing.stamped_fresh _ _ _
  last_ge _ := le_rfl
  last_le t := by
    have := index_nonneg t h
    show -1 ≤ t.index till
    omega
  own _ _ _ hq := by cases hq

/-- A tier whose header holds no index has no point of an earlier turn than that of the minute. -/
def Ready (f : RingFile) (minute : ℤ) : Prop :=
  ∀ t, (f.rings t).last < 0 → SlotRing.InTurn t.len (f.rings t) (t.index minute)

private theorem ready_fresh (shape : Shape) (minute : ℤ) : (fresh shape).Ready minute := fun _ _ _ _ _ _ => Or.inl rfl

variable {till minute : ℤ} {f : RingFile} {p : Point} {vs : List ℚ}

/-- Some of the writes of a minute to a tier. -/
private theorem Safe.take (hf : f.Safe f32 added key till) (hle : till ≤ minute) (hm : 0 ≤ minute)
    (hready : f.Ready minute) (t : Tier) (k : ℕ) {r' : SlotRing Point}
    (hr' : r' = (f.rings t).writeAll t.len ((f.tierWrites f32 minute p t).take k)) :
    SlotRing.Stamped t.len r' (r'.last - t.len) (t.index minute) ∧ -1 ≤ r'.last ∧ r'.last ≤ t.index minute ∧
      (r'.written = (f.rings t).written ∨
        r'.written = Function.update (f.rings t).written (t.index minute) (f.tierPoint f32 minute p t)) :=
  (hf.stamped t).take t.len_pos fits (hf.last_ge t) (index_nonneg t hm)
    ((hf.last_le t).trans (index_mono t hle)) (index_mono t hle) (hready t) _ k hr'

/-- The minutes of a bucket that ends with the minute written last show what was written for them. -/
private theorem Safe.minutesIn (hf : f.Safe f32 added key till) (hle : till ≤ minute) (hm : 0 ≤ minute)
    (hready : f.Ready minute) (hvs : ∀ v ∈ vs, ⟨key, minute, v⟩ ∈ added) (hp : ofValues vs = some p) (t : Tier) :
    ∀ q ∈ (f.afterMinute f32 minute p).minutesIn t (t.index minute), ∃ i, t.index i = t.index minute ∧
      FromMinute f32 added key i q := by
  intro q hq
  have hput : (f.afterMinute f32 minute p).rings .minute = (f.rings .minute).writeAll Tier.minute.len
      ((f.tierWrites f32 minute p .minute).take (f.tierWrites f32 minute p .minute).length) := by
    rw [List.take_length, tierWrites, index_minute, tierPoint, if_pos rfl, afterMinute]
    dsimp only
    rw [Function.update_self]
    rfl
  obtain ⟨hstamped, -, -, hwritten⟩ := hf.take hle hm hready .minute _ hput
  rw [index_minute] at hstamped hwritten
  obtain ⟨k, hk, hshown⟩ := List.mem_filterMap.1 hq
  rw [List.mem_range] at hk
  set i : ℤ := t.index minute * t.step + k with hi
  have hstep : 0 < t.step ∧ t.step ≤ 60 := by cases t <;> decide
  have hindex : t.index i = t.index minute := index_bucket t _ hk
  have hbucket := lt_bucket t minute
  have hi0 : 0 ≤ i := by
    have := mul_nonneg (index_nonneg t hm) hstep.1.le
    omega
  have hlen : Tier.minute.len = 1440 := rfl
  refine ⟨i, hindex, ?_⟩
  rcases hstamped.shown Tier.minute.len_pos hi0 (by omega) with hnone | heq
  · rw [hnone] at hshown
    cases hshown
  · rw [heq] at hshown
    rcases hwritten with hsame | hupd
    · have := hf.own .minute i q (hsame ▸ hshown)
      rwa [FromSpan, if_pos rfl] at this
    · rw [hupd] at hshown
      by_cases him : i = minute
      · rw [him, Function.update_self, tierPoint, if_pos rfl] at hshown
        rw [him]
        refine ⟨vs, hvs, ?_⟩
        rw [hp, Option.map_some, ← hf.shape]
        exact hshown
      · rw [Function.update_of_ne him] at hshown
        have := hf.own .minute i q hshown
        rwa [FromSpan, if_pos rfl] at this

/-- The points that a minute puts in the tiers are computed from values of their spans. -/
private theorem Safe.tierPoint (hf : f.Safe f32 added key till) (hle : till ≤ minute) (hm : 0 ≤ minute)
    (hready : f.Ready minute) (hvs : ∀ v ∈ vs, ⟨key, minute, v⟩ ∈ added) (hp : ofValues vs = some p) (t : Tier)
    {q : Point} (hq : f.tierPoint f32 minute p t = some q) : FromSpan f32 added key t (t.index minute) q := by
  unfold RingFile.tierPoint at hq
  split at hq
  · rename_i ht
    subst ht
    rw [FromSpan, if_pos rfl, index_minute]
    refine ⟨vs, hvs, ?_⟩
    rw [hp, Option.map_some, ← hf.shape]
    exact hq
  · rename_i ht
    rw [FromSpan, if_neg ht]
    exact ⟨_, hf.minutesIn hle hm hready hvs hp t, hf.shape ▸ hq⟩

/-- A minute that is written after the others, or the first writes of it, leave the file safe. -/
theorem Safe.cut (hf : f.Safe f32 added key till) (hle : till ≤ minute) (hm : 0 ≤ minute) (hready : f.Ready minute)
    (hvs : ∀ v ∈ vs, ⟨key, minute, v⟩ ∈ added) (hp : ofValues vs = some p) (k : ℕ) :
    ∃ f', writeAll (some f) ((f.putMinute f32 minute p).take k) = some f' ∧ f'.Safe f32 added key minute := by
  rw [putMinute_eq]
  obtain ⟨ks, -, hall⟩ := writeAll_tiers_take (f.tierWrites f32 minute p) (f.nodup_tiersOf f32 minute p) f k
  have htier := fun t => hf.take (p := p) hle hm hready t (ks t) rfl
  refine ⟨_, hall, hf.shape, fun t => (htier t).1, fun t => (htier t).2.1, fun t => (htier t).2.2.1, ?_⟩
  intro t i q hq
  rcases (htier t).2.2.2 with hsame | hupd
  · exact hf.own t i q (hsame ▸ hq)
  · dsimp only at hq
    rw [hupd] at hq
    by_cases hi : i = t.index minute
    · rw [hi, Function.update_self] at hq
      exact hi ▸ hf.tierPoint hle hm hready hvs hp t hq
    · rw [Function.update_of_ne hi] at hq
      exact hf.own t i q hq

end RingFile

namespace History

/-! ### The minutes a step writes -/

/-- The open minute that an entry of an `add` closes. -/
def closing (h : History) (node : NodeId) (t : ℕ) (e : JsString × Option ℚ) : Option (SeriesKey × Cur) :=
  ((e.2.bind fun _ => h.opened.get? (node, e.1)).filter fun c => c.minute ≠ t / MIN).map fun c => ((node, e.1), c)

/-- The open minutes that a step writes, wholly or in part. -/
def closes (h : History) (s : HistoryStep) : List (SeriesKey × Cur) :=
  match s.op with
  | .add node values => values.entries.filterMap (h.closing node s.time)
  | .flush => h.opened.entries
  | .restart => []
  | .cutAdd node values place _ => (values.entries.take (place + 1)).filterMap (h.closing node s.time)
  | .cutFlush place _ => h.opened.entries.take (place + 1)

/-- A minute may be written to the file of its series: no tier without a header has a point of an earlier turn. -/
def ReadyAt (digest : JsString → JsString) (h : History) (key : SeriesKey) (c : Cur) : Prop :=
  ∀ f, h.soundFile digest key = some f → f.Ready c.minute

/-- The names of the series that a step adds to are in `S`. -/
def NamesIn (S : Set JsString) (s : HistoryStep) : Prop :=
  match s.op with
  | .add _ values | .cutAdd _ values _ _ => ∀ e ∈ values.entries, e.1 ∈ S
  | .flush | .restart | .cutFlush _ _ => True

/-- A step no earlier than the one before it, whose minutes may be written. -/
def InOrder (digest : JsString → JsString) (S : Set JsString) (h : History) (s : HistoryStep) : Prop :=
  h.clock ≤ s.time ∧ NamesIn S s ∧ ∀ e ∈ h.closes s, h.ReadyAt digest e.1 e.2

/-! ### The invariant -/

/-- The minute up to which a series may have been written. -/
def reached (h : History) (now : ℤ) (key : SeriesKey) : ℤ := ((h.opened.get? key).map Cur.minute).getD now

/-- The minute in progress is made of values added in it. -/
def MadeOf (added : List Sample) (key : SeriesKey) (c : Cur) : Prop :=
  ∃ v vs, (∀ u ∈ v :: vs, ⟨key, c.minute, u⟩ ∈ added) ∧ c = vs.foldl Cur.push (.first c.minute v)

/-- Memory and the files hold points of their own times only. -/
structure Own (f32 : ℚ → ℚ) (digest : JsString → JsString) (S : Set JsString) (now : ℤ) (h : History) : Prop where
  opened : ∀ key c, h.opened.get? key = some c →
    key.2 ∈ S ∧ 0 ≤ c.minute ∧ c.minute ≤ now ∧ MadeOf h.added key c
  files : ∀ key, key.2 ∈ S → ∀ f, h.files.get? (fileKey digest key) = some f →
    f.Safe f32 h.added key (h.reached now key)

variable {f32 : ℚ → ℚ} {digest : JsString → JsString} {maxSeries : ℕ} {S : Set JsString} {now : ℤ} {h : History}

private theorem reached_eq {key : SeriesKey} {c : Cur} (hc : h.opened.get? key = some c) :
    h.reached now key = c.minute := by
  rw [reached, hc]
  rfl

private theorem Own.reached_le (ho : h.Own f32 digest S now) (key : SeriesKey) : h.reached now key ≤ now := by
  cases hc : h.opened.get? key with
  | none => rw [reached, hc]; exact le_rfl
  | some c => rw [reached_eq hc]; exact (ho.opened key c hc).2.2.1

theorem MadeOf.mono {key : SeriesKey} {c : Cur} (hm : ∀ s ∈ added, s ∈ added') (hc : MadeOf added key c) :
    MadeOf added' key c := by
  obtain ⟨v, vs, hvs, heq⟩ := hc
  exact ⟨v, vs, fun u hu => hm _ (hvs u hu), heq⟩

private theorem fileKey_inj (hS : Set.InjOn (fileOf digest) S) {key key' : SeriesKey} (hk : key.2 ∈ S)
    (hk' : key'.2 ∈ S)
    (heq : fileKey digest key = fileKey digest key') : key = key' := by
  obtain ⟨hnode, hfile⟩ := Prod.mk.inj heq
  exact Prod.ext hnode (hS hk hk' hfile)

/-- The invariant at a later time, with more values. -/
theorem Own.mono (ho : h.Own f32 digest S now) {now' : ℤ} (hnow : now ≤ now') {added : List Sample}
    (hm : ∀ s ∈ h.added, s ∈ added) : Own f32 digest S now' { h with added := added } := by
  refine ⟨fun key c hc => ?_, fun key hk f hf => ?_⟩
  · obtain ⟨hS, h0, hle, hmade⟩ := ho.opened key c hc
    exact ⟨hS, h0, hle.trans hnow, hmade.mono hm⟩
  · refine (ho.files key hk f hf).mono ?_ hm
    unfold reached
    cases h.opened.get? key with
    | none => exact hnow
    | some c => exact le_rfl

/-- An open minute is set, or forgotten. -/
theorem Own.withOpened (ho : h.Own f32 digest S now) {opened : OMap SeriesKey Cur}
    (hopened : ∀ key c, opened.get? key = some c → h.opened.get? key = some c ∨
      key.2 ∈ S ∧ 0 ≤ c.minute ∧ c.minute ≤ now ∧ h.reached now key ≤ c.minute ∧ MadeOf h.added key c) :
    Own f32 digest S now { h with opened := opened } := by
  refine ⟨fun key c hc => ?_, fun key hk f hf => (ho.files key hk f hf).mono ?_ fun _ hs => hs⟩
  · rcases hopened key c hc with hold | ⟨hS, h0, hle, -, hmade⟩
    · exact ho.opened key c hold
    · exact ⟨hS, h0, hle, hmade⟩
  · cases hc : opened.get? key with
    | none =>
      rw [show reached { h with opened := opened } now key = now by rw [reached, hc]; rfl]
      exact ho.reached_le key
    | some c =>
      rw [show reached { h with opened := opened } now key = c.minute by rw [reached, hc]; rfl]
      rcases hopened key c hc with hold | ⟨-, -, -, hle, -⟩
      · exact (reached_eq hold).le
      · exact hle

variable (f32 digest maxSeries)

/-- Some of the writes of an open minute keep the invariant. -/
private theorem Own.cutWrites (hS : Set.InjOn (fileOf digest) S) (ho : h.Own f32 digest S now) {key : SeriesKey}
    {c : Cur}
    (hc : h.opened.get? key = some c) (hready : h.ReadyAt digest key c) (k : ℕ) :
    (h.onDisk digest key ((h.writes f32 digest maxSeries key c).take k)).Own f32 digest S now := by
  obtain ⟨hopened, hadded, -, hfiles⟩ := h.onDisk_spec digest key ((h.writes f32 digest maxSeries key c).take k)
  obtain ⟨hkS, h0, hle, v, vs, hvs, hmade⟩ := ho.opened key c hc
  have hp : ofValues (v :: vs) = some c.point := by
    rw [RingFile.ofValues_foldl v vs c.minute, ← hmade]
  refine ⟨fun key' c' hc' => ?_, fun key' hk' f hf => ?_⟩
  · rw [hopened] at hc'
    rw [hadded]
    exact ho.opened key' c' hc'
  · rw [hadded, show reached _ now key' = h.reached now key' by rw [reached, hopened]; rfl]
    rw [hfiles] at hf
    split at hf
    · rename_i hsame
      obtain rfl := fileKey_inj hS hk' hkS hsame
      rw [reached_eq hc]
      unfold writes at hf
      split at hf
      · unfold RingFile.minuteWrites at hf
        split at hf
        · -- the file is there, and of the shape
          rename_i g hg
          obtain ⟨hget, -⟩ := files_of_soundFile hg
          have hsafe := ho.files key' hk' g hget
          rw [reached_eq hc] at hsafe
          obtain ⟨f', hf', hsafe'⟩ := hsafe.cut le_rfl h0 (hready g hg) hvs hp k
          rw [hget, hf'] at hf
          exact Option.some.inj hf ▸ hsafe'
        · rename_i hnone
          cases hget : h.files.get? (fileKey digest key') with
          | some g =>
            have hshape := (ho.files key' hk' g hget).shape
            rw [hget, Option.filter_some, if_pos (by simpa using hshape)] at hnone
            cases hnone
          | none =>
            rw [hget] at hf
            cases k with
            | zero => cases hf
            | succ k =>
              obtain ⟨f', hf', hsafe'⟩ := (@RingFile.safe_fresh f32 h.added key' c.minute h0).cut
                le_rfl h0 (RingFile.ready_fresh _ _) hvs hp k
              rw [List.take_succ_cons] at hf
              have hf : RingFile.writeAll (some (RingFile.fresh (shapeOf key'.2)))
                (((RingFile.fresh (shapeOf key'.2)).putMinute f32 c.minute c.point).take k) = some f := hf
              rw [hf'] at hf
              exact Option.some.inj hf ▸ hsafe'
      · rw [List.take_nil] at hf
        have := ho.files key' hk' f hf
        rwa [reached_eq hc] at this
    · exact ho.files key' hk' f hf

theorem Own.close (hS : Set.InjOn (fileOf digest) S) (ho : h.Own f32 digest S now) {key : SeriesKey} {c : Cur}
    (hc : h.opened.get? key = some c) (hready : h.ReadyAt digest key c) :
    (h.close f32 digest maxSeries key c).Own f32 digest S now := by
  have hcut := ho.cutWrites f32 digest maxSeries hS hc hready (h.writes f32 digest maxSeries key c).length
  rwa [List.take_length] at hcut

theorem Own.restart (ho : h.Own f32 digest S now) : h.restart.Own f32 digest S now :=
  ho.withOpened fun key c hc => by cases hc

/-! ### The steps -/

theorem Own.addOne (hS : Set.InjOn (fileOf digest) S) {t : ℕ} (ho : h.Own f32 digest S ((t : ℤ) / MIN))
    {key : SeriesKey} (hk : key.2 ∈ S) (v : ℚ)
    (hready : ∀ c, h.opened.get? key = some c → c.minute ≠ t / MIN → h.ReadyAt digest key c) :
    (h.addOne f32 digest maxSeries key v t).Own f32 digest S ((t : ℤ) / MIN) := by
  have hnow : 0 ≤ (t : ℤ) / MIN := Int.ediv_nonneg (Int.natCast_nonneg t) (by decide)
  set h' : History := { h with added := h.added ++ [⟨key, (t : ℤ) / MIN, v⟩] } with hh'
  have ho' : h'.Own f32 digest S ((t : ℤ) / MIN) := ho.mono le_rfl fun s hs => List.mem_append_left _ hs
  have hv : ⟨key, (t : ℤ) / MIN, v⟩ ∈ h'.added := List.mem_append_right _ List.mem_cons_self
  have hfirst : ∀ g : History, g.Own f32 digest S ((t : ℤ) / MIN) → g.added = h'.added →
      Own f32 digest S ((t : ℤ) / MIN) { g with opened := g.opened.set key (.first (t / MIN) v) } := by
    intro g hg hadded
    refine hg.withOpened fun k c hc => ?_
    rw [OMap.get?_set] at hc
    split at hc
    · rename_i hkey
      obtain rfl := Option.some.inj hc
      refine Or.inr ⟨hkey ▸ hk, hnow, le_rfl, hg.reached_le k, v, [], fun u hu => ?_, rfl⟩
      rw [List.mem_singleton.1 hu, hadded, hkey]
      exact hv
    · exact Or.inl hc
  unfold History.addOne
  dsimp only
  rw [← hh']
  split
  · rename_i cur hcur
    split
    · rename_i hsame
      refine ho'.withOpened fun k c hc => ?_
      rw [OMap.get?_set] at hc
      split at hc
      · rename_i hkey
        obtain rfl := Option.some.inj hc
        obtain ⟨-, h0, hle, w, ws, hws, hmade⟩ := ho'.opened key cur hcur
        refine Or.inr ⟨hkey ▸ hk, h0, hle, ?_, w, ws ++ [v], fun u hu => ?_, ?_⟩
        · rw [hkey, reached_eq (h := h') hcur]
          exact le_rfl
        · rcases List.mem_cons.1 hu with rfl | hu
          · exact hkey ▸ hws u List.mem_cons_self
          · rcases List.mem_append.1 hu with hu | hu
            · exact hkey ▸ hws u (List.mem_cons_of_mem w hu)
            · rw [List.mem_singleton.1 hu, hkey, show (cur.push v).minute = t / MIN from hsame]
              exact hv
        · rw [List.foldl_append, show (cur.push v).minute = cur.minute from rfl, ← hmade]
          rfl
      · exact Or.inl hc
    · rename_i hdiff
      have hclosed := ho'.close f32 digest maxSeries hS hcur (hready cur hcur hdiff)
      split
      · exact hfirst _ hclosed (h'.onDisk_spec digest key (h'.writes f32 digest maxSeries key cur)).2.1
      · exact hclosed
  · split
    · exact hfirst h' ho' rfl
    · exact ho'

theorem Own.flushOne (hS : Set.InjOn (fileOf digest) S) {t : ℕ} (ho : h.Own f32 digest S ((t : ℤ) / MIN))
    {e : SeriesKey × Cur} (hc : h.opened.get? e.1 = some e.2) (hready : h.ReadyAt digest e.1 e.2) :
    (History.flushOne f32 digest maxSeries t h e).Own f32 digest S ((t : ℤ) / MIN) := by
  have hclosed := ho.close f32 digest maxSeries hS hc hready
  unfold History.flushOne
  dsimp only
  split
  · refine hclosed.withOpened fun k c hk => Or.inl ?_
    rw [OMap.get?_erase] at hk
    split at hk
    · cases hk
    · exact hk
  · exact hclosed

/-- What the writing of one series leaves of another: its open minute and its file. -/
def SameSeries (digest : JsString → JsString) (h h' : History) (key : SeriesKey) : Prop :=
  h'.opened.get? key = h.opened.get? key ∧
    h'.files.get? (fileKey digest key) = h.files.get? (fileKey digest key)

variable {f32 digest maxSeries}

private theorem SameSeries.readyAt {h' : History} {key : SeriesKey} (hsame : SameSeries digest h h' key) {c : Cur}
    (hready : h.ReadyAt digest key c) : h'.ReadyAt digest key c := by
  unfold ReadyAt soundFile at hready ⊢
  rw [hsame.2]
  exact hready

private theorem SameSeries.closing {h' : History} {node : NodeId} {e : JsString × Option ℚ}
    (hsame : SameSeries digest h h' (node, e.1)) (t : ℕ) : h'.closing node t e = h.closing node t e := by
  unfold History.closing
  rw [hsame.1]

private theorem sameSeries_addOne (hS : Set.InjOn (fileOf digest) S) {key key' : SeriesKey} (hk : key.2 ∈ S)
    (hk' : key'.2 ∈ S)
    (hne : key' ≠ key) (v : ℚ) (t : ℕ) : SameSeries digest h (h.addOne f32 digest maxSeries key v t) key' :=
  have hframe := addOne_frame f32 digest maxSeries (h := h) key v t
  ⟨hframe.1 key' hne, hframe.2 _ fun heq => hne (fileKey_inj hS hk' hk heq)⟩

private theorem sameSeries_flushOne (hS : Set.InjOn (fileOf digest) S) {e : SeriesKey × Cur} {key : SeriesKey}
    (he : e.1.2 ∈ S)
    (hk : key.2 ∈ S) (hne : key ≠ e.1) (t : ℕ) : SameSeries digest h (flushOne f32 digest maxSeries t h e) key :=
  have hframe := flushOne_frame f32 digest maxSeries (h := h) t e
  ⟨hframe.1 key hne, hframe.2 _ fun heq => hne (fileKey_inj hS hk he heq)⟩

/-- The entries of an `add`, one after the other. -/
theorem Own.addEntries (maxSeries : ℕ) (hS : Set.InjOn (fileOf digest) S) {t : ℕ} {node : NodeId} {es : List (JsString × Option ℚ)}
    (hnodup : (es.map Prod.fst).Nodup) (hnames : ∀ e ∈ es, e.1 ∈ S) (ho : h.Own f32 digest S ((t : ℤ) / MIN))
    (hready : ∀ x ∈ es.filterMap (h.closing node t), h.ReadyAt digest x.1 x.2) :
    (es.foldl (addEntry f32 digest maxSeries node t) h).Own f32 digest S ((t : ℤ) / MIN) ∧
      ∀ name ∈ S, name ∉ es.map Prod.fst →
        SameSeries digest h (es.foldl (addEntry f32 digest maxSeries node t) h) (node, name) := by
  induction es generalizing h with
  | nil => exact ⟨ho, fun _ _ _ => ⟨rfl, rfl⟩⟩
  | cons e es ih =>
    rw [List.map_cons, List.nodup_cons] at hnodup
    have heS : e.1 ∈ S := hnames e List.mem_cons_self
    rw [List.foldl_cons]
    obtain ⟨h₁, hh₁⟩ : ∃ h₁, h₁ = addEntry f32 digest maxSeries node t h e := ⟨_, rfl⟩
    have hstep : h₁.Own f32 digest S ((t : ℤ) / MIN) ∧
        ∀ name ∈ S, name ≠ e.1 → SameSeries digest h h₁ (node, name) := by
      rw [hh₁, addEntry]
      split
      · rename_i v hv
        refine ⟨ho.addOne f32 digest maxSeries hS (show (node, e.1).2 ∈ S from heS) v fun c hc hdiff => ?_, fun name hn hne => ?_⟩
        · refine hready ((node, e.1), c) (List.mem_filterMap.2 ⟨e, List.mem_cons_self, ?_⟩)
          rw [History.closing, hv]
          simp only [Option.bind_some, hc, Option.filter_some, decide_eq_true hdiff, if_true, Option.map_some]
        · exact sameSeries_addOne hS heS hn (fun heq => hne (congrArg Prod.snd heq)) v t
      · exact ⟨ho, fun _ _ _ => ⟨rfl, rfl⟩⟩
    rw [← hh₁]
    have hsame : ∀ e' ∈ es, SameSeries digest h h₁ (node, e'.1) := fun e' he' =>
      hstep.2 e'.1 (hnames e' (List.mem_cons_of_mem e he')) fun heq =>
        hnodup.1 (heq ▸ List.mem_map_of_mem he')
    obtain ⟨hown, hrest⟩ := ih (h := h₁) hnodup.2 (fun e' he' => hnames e' (List.mem_cons_of_mem e he')) hstep.1
      fun x hx => by
        obtain ⟨e', he', hclosing⟩ := List.mem_filterMap.1 hx
        have hkey : x.1 = (node, e'.1) := by
          obtain ⟨c, -, rfl⟩ := Option.map_eq_some_iff.1 hclosing
          rfl
        rw [(hsame e' he').closing] at hclosing
        have := hready x (List.mem_filterMap.2 ⟨e', List.mem_cons_of_mem e he', hclosing⟩)
        exact (hkey ▸ hsame e' he').readyAt this
    refine ⟨hown, fun name hn hnot => ?_⟩
    rw [List.map_cons, List.mem_cons, not_or] at hnot
    have h1 := hstep.2 name hn hnot.1
    have h2 := hrest name hn hnot.2
    exact ⟨h2.1.trans h1.1, h2.2.trans h1.2⟩

/-- The open minutes of a flush, one after the other. -/
theorem Own.flushEntries (maxSeries : ℕ) (hS : Set.InjOn (fileOf digest) S) {t : ℕ} {es : List (SeriesKey × Cur)}
    (hnodup : (es.map Prod.fst).Nodup) (hopened : ∀ e ∈ es, h.opened.get? e.1 = some e.2)
    (ho : h.Own f32 digest S ((t : ℤ) / MIN)) (hready : ∀ e ∈ es, h.ReadyAt digest e.1 e.2) :
    (es.foldl (History.flushOne f32 digest maxSeries t) h).Own f32 digest S ((t : ℤ) / MIN) ∧
      ∀ key, key.2 ∈ S → key ∉ es.map Prod.fst →
        SameSeries digest h (es.foldl (History.flushOne f32 digest maxSeries t) h) key := by
  induction es generalizing h with
  | nil => exact ⟨ho, fun _ _ _ => ⟨rfl, rfl⟩⟩
  | cons e es ih =>
    rw [List.map_cons, List.nodup_cons] at hnodup
    have hc := hopened e List.mem_cons_self
    have heS : e.1.2 ∈ S := (ho.opened e.1 e.2 hc).1
    have hown := ho.flushOne f32 digest maxSeries hS hc (hready e List.mem_cons_self)
    have hsame : ∀ e' ∈ es, SameSeries digest h (History.flushOne f32 digest maxSeries t h e) e'.1 := fun e' he' =>
      sameSeries_flushOne hS heS (ho.opened e'.1 e'.2 (hopened e' (List.mem_cons_of_mem e he'))).1
        (fun heq => hnodup.1 (heq ▸ List.mem_map_of_mem he')) t
    obtain ⟨hown', hrest⟩ := ih hnodup.2
      (fun e' he' => (hsame e' he').1.trans (hopened e' (List.mem_cons_of_mem e he'))) hown
      (fun e' he' => (hsame e' he').readyAt (hready e' (List.mem_cons_of_mem e he')))
    refine ⟨hown', fun key hk hnot => ?_⟩
    rw [List.map_cons, List.mem_cons, not_or] at hnot
    have h1 : SameSeries digest h (History.flushOne f32 digest maxSeries t h e) key := sameSeries_flushOne hS heS hk hnot.1 t
    have h2 := hrest key hk hnot.2
    exact ⟨h2.1.trans h1.1, h2.2.trans h1.2⟩

theorem keys_nodup {κ ν : Type*} (m : OMap κ ν) (n : ℕ) : ((m.entries.take n).map Prod.fst).Nodup :=
  m.nodup.sublist ((List.take_sublist n m.entries).map Prod.fst)

/-- A process that is stopped at an entry leaves the entries before it done. -/
private theorem take_getElem? {α : Type*} {l : List α} {n : ℕ} {x : α} (hx : l[n]? = some x) :
    l.take (n + 1) = l.take n ++ [x] := by
  rw [List.take_add_one, hx, Option.toList_some]

theorem Own.cutAdd (hS : Set.InjOn (fileOf digest) S) {t : ℕ} (ho : h.Own f32 digest S ((t : ℤ) / MIN))
    {node : NodeId} {values : OMap JsString (Option ℚ)} {place k : ℕ} (hnames : ∀ e ∈ values.entries, e.1 ∈ S)
    (hready : ∀ x ∈ (values.entries.take (place + 1)).filterMap (h.closing node t), h.ReadyAt digest x.1 x.2) :
    (h.cutAdd f32 digest maxSeries node values place k t).Own f32 digest S ((t : ℤ) / MIN) := by
  obtain ⟨hown, hsame⟩ := ho.addEntries maxSeries hS (keys_nodup values place)
    (fun e he => hnames e (List.mem_of_mem_take he))
    (fun x hx => hready x (by
      obtain ⟨e, he, hc⟩ := List.mem_filterMap.1 hx
      exact List.mem_filterMap.2 ⟨e, (List.take_sublist_take_left (Nat.le_succ place)).subset he, hc⟩))
  unfold History.cutAdd
  dsimp only
  split
  · rename_i name v hentry
    have hmem : (name, some v) ∈ values.entries := List.mem_of_getElem? hentry
    have hnot : name ∉ (values.entries.take place).map Prod.fst := by
      have hnodup := keys_nodup values (place + 1)
      rw [take_getElem? hentry, List.map_append, List.nodup_append] at hnodup
      exact fun hin => hnodup.2.2 name hin name List.mem_cons_self rfl
    have hframe := hsame name (hnames _ hmem) hnot
    split
    · rename_i cur hcur
      split
      · exact hown.restart
      · rename_i hdiff
        refine (hown.cutWrites f32 digest maxSeries hS hcur (hframe.readyAt (hready ((node, name), cur) ?_)) k).restart
        rw [take_getElem? hentry, List.filterMap_append]
        refine List.mem_append_right _ (List.mem_filterMap.2 ⟨_, List.mem_cons_self, ?_⟩)
        rw [History.closing]
        simp only [Option.bind_some, ← hframe.1, hcur, Option.filter_some, decide_eq_true hdiff, if_true,
          Option.map_some]
    · exact hown.restart
  · exact hown.restart

theorem Own.cutFlush (hS : Set.InjOn (fileOf digest) S) {t : ℕ} (ho : h.Own f32 digest S ((t : ℤ) / MIN))
    {place k : ℕ} (hready : ∀ e ∈ h.opened.entries.take (place + 1), h.ReadyAt digest e.1 e.2) :
    (h.cutFlush f32 digest maxSeries place k t).Own f32 digest S ((t : ℤ) / MIN) := by
  have hopened : ∀ e ∈ h.opened.entries, h.opened.get? e.1 = some e.2 := fun e he => OMap.mem_entries_iff.1 he
  obtain ⟨hown, hsame⟩ := ho.flushEntries maxSeries hS (keys_nodup h.opened place)
    (fun e he => hopened e (List.mem_of_mem_take he))
    (fun e he => hready e ((List.take_sublist_take_left (Nat.le_succ place)).subset he))
  unfold History.cutFlush
  dsimp only
  split
  · rename_i key cur hentry
    have hmem : (key, cur) ∈ h.opened.entries := List.mem_of_getElem? hentry
    have hkS := (ho.opened key cur (hopened _ hmem)).1
    have hnot : key ∉ (h.opened.entries.take place).map Prod.fst := by
      have hnodup := keys_nodup h.opened (place + 1)
      rw [take_getElem? hentry, List.map_append, List.nodup_append] at hnodup
      exact fun hin => hnodup.2.2 key hin key List.mem_cons_self rfl
    have hframe := hsame key hkS hnot
    refine (hown.cutWrites f32 digest maxSeries hS (hframe.1.trans (hopened _ hmem))
      (hframe.readyAt (hready (key, cur) ?_)) k).restart
    rw [take_getElem? hentry]
    exact List.mem_append_right _ List.mem_cons_self
  · exact hown.restart

theorem Own.step (hS : Set.InjOn (fileOf digest) S) {s : HistoryStep} (ho : h.Own f32 digest S ((h.clock : ℤ) / MIN))
    (hs : h.InOrder digest S s) :
    (h.step f32 digest maxSeries s).Own f32 digest S (((h.step f32 digest maxSeries s).clock : ℤ) / MIN) := by
  obtain ⟨t, op⟩ := s
  obtain ⟨hclock, hnames, hready⟩ := hs
  have hclock : (h.clock : ℤ) ≤ t := Int.ofNat_le.2 hclock
  have hle : (h.clock : ℤ) / MIN ≤ (t : ℤ) / MIN := Int.ediv_le_ediv (by decide) hclock
  have ho' : h.Own f32 digest S ((t : ℤ) / MIN) := ho.mono hle fun _ hs => hs
  suffices heff : (h.effect f32 digest maxSeries t op).Own f32 digest S ((t : ℤ) / MIN) from ⟨heff.opened, heff.files⟩
  cases op with
  | add node values =>
    exact (ho'.addEntries maxSeries hS values.nodup hnames hready).1
  | flush =>
    exact (ho'.flushEntries maxSeries hS h.opened.nodup (fun e he => OMap.mem_entries_iff.1 he) hready).1
  | restart => exact ho'.restart
  | cutAdd node values place k => exact ho'.cutAdd hS hnames hready
  | cutFlush place k => exact ho'.cutFlush hS hready

/-! ### What is shown -/

/-- For every run of minute writes whose clock does not go back, in which the process is stopped between any two file
writes and started again any number of times: while no minute is written to a tier without a header that has a point of
an earlier turn, a later query shows at an index only what was computed from values added in its own span.  The names of
the series have different files. -/
theorem shown_of_own_span (f32 : ℚ → ℚ) (digest : JsString → JsString) (maxSeries : ℕ) (S : Set JsString)
    (hS : Set.InjOn (fileOf digest) S) (steps : List HistoryStep)
    (hsteps : Runs.Meets (step f32 digest maxSeries) (InOrder digest S) empty steps) :
    let h := Runs.run (step f32 digest maxSeries) empty steps
    ∀ key range t a, key.2 ∈ S → h.clock ≤ t → Since1970 range t → h.query digest key range t = some a →
      ∀ s p, (s, some p) ∈ a.points → ∃ i q, s = i * range.tier.step * 60 ∧ p = q.rounded ∧
        (FromSpan f32 h.added key range.tier i q ∨ range.tier = .minute ∧
          ∃ vs, (∀ v ∈ vs, ⟨key, i, v⟩ ∈ h.added) ∧ (ofValues vs).map (shapeOf key.2).point = some q) := by
  intro h key range t a hkey hclock hsince hq s p hp
  have hempty : Own f32 digest S ((empty.clock : ℤ) / MIN) empty :=
    ⟨fun key c hc => (by cases hc), fun key _ f hf => (by cases hf)⟩
  have ho : h.Own f32 digest S ((h.clock : ℤ) / MIN) :=
    hsteps.invariant (I := fun h => h.Own f32 digest S ((h.clock : ℤ) / MIN)) (fun _ s hs hok => hs.step hS hok) hempty
  obtain ⟨i, hi, rfl, ⟨htier, c, hc, rfl, rfl⟩ | ⟨f, q, hf, hshown, rfl⟩⟩ := query_spec hq hp
  · obtain ⟨-, -, -, v, vs, hvs, hmade⟩ := ho.opened key c hc
    refine ⟨c.minute, _, rfl, rfl, Or.inr ⟨htier, v :: vs, hvs, ?_⟩⟩
    rw [RingFile.ofValues_foldl v vs c.minute, ← hmade, Option.map_some]
  · obtain ⟨hget, -⟩ := files_of_soundFile hf
    have hsafe := ho.files key hkey f hget
    obtain ⟨hlow, -⟩ := mem_window hi
    have hreached : range.tier.index (h.reached ((h.clock : ℤ) / MIN) key) ≤ range.tier.index (t / MIN) := by
      refine RingFile.index_mono _ ((ho.reached_le key).trans (Int.ediv_le_ediv (by decide) ?_))
      exact Int.ofNat_le.2 hclock
    have hcount : (range.count : ℤ) ≤ range.tier.len := by cases range <;> decide
    have hi0 : 0 ≤ i := by
      unfold Since1970 at hsince
      omega
    rcases (hsafe.stamped range.tier).shown range.tier.len_pos hi0 (by omega) with hnone | heq
    · rw [hnone] at hshown
      cases hshown
    · exact ⟨i, q, rfl, rfl, Or.inl (hsafe.own range.tier i q (heq ▸ hshown))⟩

/-- Every tier of the files that a step writes has a header. -/
private def Headed (h : History) (s : HistoryStep) : Bool :=
  (h.closes s).all fun e => (h.soundFile id e.1).all fun f => [Tier.minute, .tenMinutes, .hour].all fun t =>
    decide (0 ≤ (f.rings t).last)

private theorem readyAt_of_headed {s : HistoryStep} (hs : Headed h s = true) :
    ∀ e ∈ h.closes s, h.ReadyAt id e.1 e.2 := by
  intro e he f hf t hlast
  have hall := List.all_eq_true.1 hs e he
  rw [hf, Option.all_some, List.all_eq_true] at hall
  have hmem : t ∈ [Tier.minute, .tenMinutes, .hour] := by cases t <;> decide
  have := of_decide_eq_true (hall t hmem)
  omega

/-- A minute is cut off in its second file, and the day goes on. -/
private def cutRun : List HistoryStep :=
  [cpuAt 10 1, cpuAt 11 2, ⟨11 * 60000, .flush⟩, ⟨12 * 60000, .cutAdd nasCpu.1 (OMap.empty.set nasCpu.2 (some 3)) 0 1⟩,
    cpuAt 12 4, ⟨12 * 60000, .flush⟩]

private theorem inOrder_cutRun : Runs.Meets (step id id 600) (InOrder id {nasCpu.2}) empty cutRun := by
  have hheaded : Runs.Meets (step id id 600) (fun h s => h.clock ≤ s.time ∧ Headed h s = true) empty cutRun := by
    decide +kernel
  have hnames : ∀ s ∈ cutRun, NamesIn {nasCpu.2} s := by
    intro s hs
    simp only [cutRun, List.mem_cons, List.not_mem_nil, or_false] at hs
    rcases hs with rfl | rfl | rfl | rfl | rfl | rfl <;> simp [NamesIn, cpuAt, OMap.set, OMap.setEntries, OMap.empty]
  exact (hheaded.and (Runs.meets_of_forall hnames)).mono fun h s hs => ⟨hs.1.1, hs.2, readyAt_of_headed hs.1.2⟩

private def afterCut : History := Runs.run (step id id 600) empty cutRun

/-- After a crash in the middle of a minute's writes, the next minute is shown at its own time. -/
theorem shown_after_cut :
    ∃ i q, (12 * 60 : ℤ) = i * Tier.minute.step * 60 ∧ (⟨4, 4, 4⟩ : Point) = q.rounded ∧
      (FromSpan id afterCut.added nasCpu .minute i q ∨ Tier.minute = .minute ∧
        ∃ vs, (∀ v ∈ vs, ⟨nasCpu, i, v⟩ ∈ afterCut.added) ∧ (ofValues vs).map (shapeOf nasCpu.2).point = some q) := by
  have hshown : (afterCut.query id nasCpu .h1 (60 * 60000)).any
      (fun a => a.points.contains (12 * 60, some ⟨4, 4, 4⟩)) = true := by decide +kernel
  obtain ⟨a, ha, hmem⟩ := (Option.any_eq_true _ _).1 hshown
  exact shown_of_own_span id id 600 {nasCpu.2} (Set.injOn_singleton _ _) cutRun inOrder_cutRun nasCpu .h1 (60 * 60000) a
    rfl (by decide +kernel) (by decide) ha _ _ (List.contains_iff_mem.1 hmem)

/-- The first point of a tier is cut off from its header, and shown a day later at the wrong minute. -/
theorem first_point_cut_off :
    let h := Runs.run (step id id 600) empty
      [cpuAt 10 1, ⟨11 * 60000, .cutAdd nasCpu.1 (OMap.empty.set nasCpu.2 (some 3)) 0 2⟩, cpuAt 1460 5,
        ⟨1460 * 60000, .flush⟩]
    h.added = [⟨nasCpu, 10, 1⟩, ⟨nasCpu, 1460, 5⟩] ∧
      (h.query id nasCpu .h1 (1460 * 60000)).any (fun a => a.points.contains (1450 * 60, some ⟨1, 1, 1⟩)) = true := by
  decide +kernel

end History

end Servitals
