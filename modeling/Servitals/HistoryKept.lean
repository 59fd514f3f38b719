import Servitals.HistorySeries

/-!
# What the history keeps

While the clock does not go back, a series holds all that was added to it: the invariant (`Series.Kept`) says that the
minutes written to its file are the averages, lowest and highest values of what was added in them, that the longer tiers
are rolled up from those minutes, and that the minute in progress is made of all its values.  After a flush a query
answers what the values say (`query_of_the_values`), to three decimals (`value_below_three_decimals`).

A process that is flushed, stopped and started again goes on from its file.  A minute that gets values on both sides of
the stop is written twice, the second time from the later values alone (`minute_written_twice`); but for such minutes a
restart is not seen (`restart_not_seen`).
-/

namespace Servitals

open RingFile (stored ofValues roll)

/-- The values of a minute. -/
def valuesAt (vals : List (ℤ × ℚ)) (i : ℤ) : List ℚ := (vals.filter fun x => x.1 = i).map Prod.snd

/-- The points of the minutes of a bucket. -/
def bucket (w : ℤ → Option Point) (t : Tier) (b : ℤ) : List Point :=
  (List.range t.step.toNat).filterMap fun k : ℕ => w (b * t.step + k)

private theorem valuesAt_append (vals vals' : List (ℤ × ℚ)) (i : ℤ) :
    valuesAt (vals ++ vals') i = valuesAt vals i ++ valuesAt vals' i := by
  simp [valuesAt]

private theorem valuesAt_single (m i : ℤ) (v : ℚ) : valuesAt [(m, v)] i = if m = i then [v] else [] := by
  unfold valuesAt
  by_cases h : m = i <;> simp [h]

/-! ### Files -/

namespace RingFile

variable {f32 : ℚ → ℚ} {shape : Shape}

/-- A file that holds every minute written to it up to `till`, and what they roll up to. -/
structure Full (f32 : ℚ → ℚ) (shape : Shape) (till : ℤ) (f : RingFile) : Prop where
  sameShape : f.shape = shape
  holds : ∀ t ∈ Tier.minute :: shape.rolled, SlotRing.Holds t.len (f.rings t)
  last_le : ∀ t ∈ Tier.minute :: shape.rolled, (f.rings t).last ≤ t.index till
  rolled : ∀ t ∈ shape.rolled, ∀ b, 0 ≤ b →
    (f.rings t).written b = (roll (bucket (f.rings .minute).written t b)).map (stored f32 shape)

theorem Full.mono {till till' : ℤ} {f : RingFile} (hf : f.Full f32 shape till) (h : till ≤ till') :
    f.Full f32 shape till' :=
  ⟨hf.sameShape, hf.holds, fun t ht => (hf.last_le t ht).trans (index_mono t h), hf.rolled⟩

private theorem full_fresh {till : ℤ} (h : 0 ≤ till) : (fresh shape).Full f32 shape till where
  sameShape := rfl
  holds t _ := SlotRing.holds_fresh t.len
  last_le t _ := by
    have := index_nonneg t h
    show -1 ≤ t.index till
    omega
  rolled t _ b _ := by
    show none = (roll (bucket (fun _ => none) t b)).map _
    rw [bucket, List.filterMap_none]
    rfl

private theorem ne_minute_of_rolled {t : Tier} (ht : t ∈ shape.rolled) : t ≠ .minute := by
  rintro rfl
  revert ht
  cases shape <;> decide

/-- A minute written after the others. -/
theorem Full.putMinute {till minute : ℤ} {f : RingFile} (hf : f.Full f32 shape till) (hle : till ≤ minute)
    (hm : 0 ≤ minute) (hfit : minute < 2 ^ 31) (p : Point) :
    ∃ f', writeAll (some f) (f.putMinute f32 minute p) = some f' ∧ f'.Full f32 shape minute ∧
      (f'.rings .minute).written = Function.update (f.rings .minute).written minute (some (stored f32 shape p)) := by
  -- what each tier gets
  have hput : ∀ t ∈ Tier.minute :: shape.rolled, ∀ q,
      SlotRing.Holds t.len ((f.rings t).put t.len fits (t.index minute) q) ∧
        ((f.rings t).put t.len fits (t.index minute) q).last = max (f.rings t).last (t.index minute) ∧
        ((f.rings t).put t.len fits (t.index minute) q).written =
          Function.update (f.rings t).written (t.index minute) q := fun t ht q => by
    have h1 := (hf.last_le t ht).trans (index_mono t hle)
    have h2 := t.len_pos
    exact (hf.holds t ht).put t.len_pos (index_nonneg t hm) (by omega) (fits_index t hm hfit) q
  have hlast : ∀ t ∈ Tier.minute :: shape.rolled, max (f.rings t).last (t.index minute) = t.index minute :=
    fun t ht => max_eq_right ((hf.last_le t ht).trans (index_mono t hle))
  have hafter : (f.afterMinute f32 minute p).rings .minute =
      (f.rings .minute).put Tier.minute.len fits (Tier.minute.index minute) (some (stored f32 shape p)) := by
    rw [afterMinute, index_minute, hf.sameShape]
    dsimp only
    rw [Function.update_self]
  obtain ⟨hminute, hlast₁, hwritten₁⟩ := hput .minute List.mem_cons_self (some (stored f32 shape p))
  rw [← hafter, hlast .minute List.mem_cons_self, index_minute] at hlast₁
  rw [← hafter, index_minute] at hwritten₁
  rw [← hafter] at hminute
  have htiers : f.tiersOf f32 minute p = Tier.minute :: shape.rolled := by
    rw [tiersOf, hlast₁, if_neg (lt_irrefl _), hf.sameShape]
  rw [putMinute_eq, writeAll_tiers _ (f.nodup_tiersOf f32 minute p), htiers]
  refine ⟨_, rfl, ⟨hf.sameShape, fun t ht => ?_, fun t ht => ?_, fun t ht b hb => ?_⟩, ?_⟩
  · dsimp only
    rw [if_pos ht]
    exact (hput t ht _).1
  · dsimp only
    rw [if_pos ht]
    exact ((hput t ht _).2.1.trans (hlast t ht)).le
  · have ht' : t ∈ Tier.minute :: shape.rolled := List.mem_cons_of_mem _ ht
    dsimp only
    rw [if_pos ht', if_pos List.mem_cons_self]
    have hring : ((f.rings .minute).writeAll Tier.minute.len (f.tierWrites f32 minute p .minute)) =
        (f.afterMinute f32 minute p).rings .minute := by
      rw [hafter, tierWrites, tierPoint, if_pos rfl, hf.sameShape]
      rfl
    rw [hring, hwritten₁]
    have hwrittenₜ := (hput t ht' (f.tierPoint f32 minute p t)).2.2
    rw [show (f.rings t).writeAll t.len (f.tierWrites f32 minute p t) =
      (f.rings t).put t.len fits (t.index minute) (f.tierPoint f32 minute p t) from rfl, hwrittenₜ]
    by_cases hbm : b = t.index minute
    · -- the bucket of the minute is computed from the minutes in the file
      rw [hbm, Function.update_self, tierPoint, if_neg (ne_minute_of_rolled ht), hf.sameShape]
      congr 2
      refine List.filterMap_congr fun k hk => ?_
      rw [List.mem_range] at hk
      have h1 := index_nonneg t hm
      have h2 := t.step_pos
      have h3 := mul_nonneg h1 h2.le
      have h4 := lt_bucket t minute
      have h5 : t.step ≤ 60 := by cases t <;> decide
      have h6 : Tier.minute.len = 1440 := rfl
      rw [hminute.shown_eq (by omega) (by rw [hlast₁]; omega), hwritten₁]
    · rw [Function.update_of_ne hbm, hf.rolled t ht b hb]
      congr 2
      refine List.filterMap_congr fun k hk => ?_
      rw [List.mem_range] at hk
      refine (Function.update_of_ne (fun heq => hbm ?_) _ _).symm
      rw [← heq, index_bucket t b hk]
  · dsimp only
    rw [if_pos List.mem_cons_self, ← hwritten₁, hafter, tierWrites, tierPoint, if_pos rfl, hf.sameShape]
    rfl

end RingFile

namespace Series

/-! ### The invariant -/

/-- The point written for a minute: of the values added in it since the process started, or what its file had. -/
def minutePoint (f32 : ℚ → ℚ) (shape : Shape) (base : ℤ → Option Point) (vals : List (ℤ × ℚ)) (i : ℤ) :
    Option Point :=
  ((ofValues (valuesAt vals i)).map (stored f32 shape)).or (base i)

/-- What was last written for a minute. -/
def written (s : Series) (i : ℤ) : Option Point := s.file.bind fun f => (f.rings .minute).written i

/-- The minute up to which the series may have been written. -/
def till (s : Series) (now : ℤ) : ℤ := (s.cur.map Cur.minute).getD now

/-- The series holds the values added to it since its process started: those of the minute in progress in memory, the
others in its file.  `base` is what the file had then, and `had` says whether there was one. -/
structure Kept (f32 : ℚ → ℚ) (shape : Shape) (base : ℤ → Option Point) (had : Prop) (vals : List (ℤ × ℚ)) (now : ℤ)
    (s : Series) : Prop where
  now_ge : 0 ≤ now
  now_fits : now < 2 ^ 31
  cur : ∀ c, s.cur = some c → 0 ≤ c.minute ∧ c.minute ≤ now ∧ (∀ i, c.minute < i → valuesAt vals i = []) ∧
    ∃ v vs, valuesAt vals c.minute = v :: vs ∧ c = vs.foldl Cur.push (.first c.minute v)
  idle : s.cur = none → ∀ i, now ≤ i → valuesAt vals i = []
  file : ∀ f, s.file = some f → f.Full f32 shape (s.till now)
  minutes : ∀ i, (∀ c, s.cur = some c → c.minute ≠ i) → s.written i = minutePoint f32 shape base vals i
  known : s.file.isSome = true ∨ s.cur.isSome = true ↔ had ∨ vals ≠ []

variable {f32 : ℚ → ℚ} {shape : Shape} {base : ℤ → Option Point} {had : Prop} {vals : List (ℤ × ℚ)} {now m : ℤ}
  {s : Series}

private theorem Kept.till_le (h : s.Kept f32 shape base had vals now) : s.till now ≤ now := by
  cases hc : s.cur with
  | none => rw [till, hc]; exact le_rfl
  | some c => rw [till, hc]; exact (h.cur c hc).2.1

theorem Kept.late (h : s.Kept f32 shape base had vals now) {i : ℤ} (hi : now < i) : valuesAt vals i = [] := by
  cases hc : s.cur with
  | none => exact h.idle hc i hi.le
  | some c =>
    obtain ⟨-, hcn, hlater, -⟩ := h.cur c hc
    exact hlater i (hcn.trans_lt hi)

/-- The invariant at a later time. -/
theorem Kept.mono (h : s.Kept f32 shape base had vals now) (hle : now ≤ m) (hfit : m < 2 ^ 31) :
    s.Kept f32 shape base had vals m where
  now_ge := h.now_ge.trans hle
  now_fits := hfit
  cur c hc := by
    obtain ⟨h0, hcn, hlater, hmade⟩ := h.cur c hc
    exact ⟨h0, hcn.trans hle, hlater, hmade⟩
  idle hc i hi := h.idle hc i (hle.trans hi)
  file f hf := (h.file f hf).mono (by
    unfold till
    cases s.cur with
    | none => exact hle
    | some c => exact le_rfl)
  minutes := h.minutes
  known := h.known

/-- A process starts over what a flushed one left. -/
theorem Kept.restart (h : s.Kept f32 shape base had vals now)
    (hall : ∀ i, s.written i = minutePoint f32 shape base vals i) (hfile : s.cur.isSome = true → s.file.isSome = true) :
    (s.apply f32 shape .restart).Kept f32 shape (minutePoint f32 shape base vals) (had ∨ vals ≠ []) [] now where
  now_ge := h.now_ge
  now_fits := h.now_fits
  cur c hc := by cases hc
  idle _ _ _ := rfl
  file f hf := (h.file f hf).mono h.till_le
  minutes i _ := hall i
  known := by
    rw [← h.known]
    constructor
    · rintro (hf | hc)
      · exact Or.inl (Or.inl hf)
      · cases hc
    · rintro ((hf | hc) | hne)
      · exact Or.inl hf
      · exact Or.inl (hfile hc)
      · exact absurd rfl hne

/-- The minute in progress is written: the file then holds every minute. -/
theorem Kept.close (h : s.Kept f32 shape base had vals now) {c : Cur} (hc : s.cur = some c) :
    (s.close f32 shape c).Kept f32 shape base had vals now ∧
      (∀ i, (s.close f32 shape c).written i = minutePoint f32 shape base vals i) ∧
      (s.close f32 shape c).file.isSome = true := by
  obtain ⟨h0, hcn, hlater, v, vs, hvals, hmade⟩ := h.cur c hc
  have hfit : c.minute < 2 ^ 31 := hcn.trans_lt h.now_fits
  have htill : s.till now = c.minute := by rw [till, hc]; rfl
  have hpoint : ofValues (valuesAt vals c.minute) = some c.point := by
    rw [hvals, RingFile.ofValues_foldl v vs c.minute, ← hmade]
  obtain ⟨f', hf', hfull, hwritten⟩ : ∃ f', (s.close f32 shape c).file = some f' ∧ f'.Full f32 shape c.minute ∧
      ∀ i, (f'.rings .minute).written i = if i = c.minute then some (stored f32 shape c.point) else s.written i := by
    have hfile : (s.close f32 shape c).file =
        RingFile.writeAll s.file (RingFile.minuteWrites f32 s.file shape c.minute c.point) := rfl
    rw [hfile]
    unfold RingFile.minuteWrites
    cases hs : s.file with
    | none =>
      obtain ⟨f', hf', hfull, hupd⟩ := (@RingFile.full_fresh f32 shape c.minute h0).putMinute le_rfl h0 hfit
        c.point
      refine ⟨f', hf', hfull, fun i => ?_⟩
      rw [hupd, Function.update_apply, written, hs]
      rfl
    | some f =>
      have hfullₛ := h.file f hs
      rw [htill] at hfullₛ
      rw [Option.filter_some, if_pos (by simpa using hfullₛ.sameShape)]
      obtain ⟨f', hf', hfull, hupd⟩ := hfullₛ.putMinute le_rfl h0 hfit c.point
      refine ⟨f', hf', hfull, fun i => ?_⟩
      rw [hupd, Function.update_apply, written, hs]
      rfl
  have hall : ∀ i, (s.close f32 shape c).written i = minutePoint f32 shape base vals i := by
    intro i
    rw [written, hf', Option.bind_some, hwritten]
    split
    · rename_i hi
      rw [hi, minutePoint, hpoint]
      rfl
    · rename_i hi
      refine h.minutes i fun c' hc' heq => hi ?_
      rw [← heq, Option.some.inj (hc.symm.trans hc')]
  refine ⟨⟨h.now_ge, h.now_fits, h.cur, h.idle, fun f hf => ?_, fun i _ => hall i, ?_⟩, hall, by rw [hf']; rfl⟩
  · rw [hf'] at hf
    rw [show (s.close f32 shape c).till now = c.minute from htill]
    exact Option.some.inj hf ▸ hfull
  · rw [← h.known, hf', hc, show (s.close f32 shape c).cur = some c from hc]
    simp

/-- The values of other minutes are those from before. -/
private theorem minutePoint_value {i : ℤ} (hi : m ≠ i) (v : ℚ) :
    minutePoint f32 shape base (vals ++ [(m, v)]) i = minutePoint f32 shape base vals i := by
  rw [minutePoint, minutePoint, valuesAt_append, valuesAt_single, if_neg hi, List.append_nil]

/-- A series whose file holds every minute goes on with a minute of its own. -/
private theorem Kept.first (h : s.Kept f32 shape base had vals m)
    (hall : ∀ i, s.written i = minutePoint f32 shape base vals i) (hnone : valuesAt vals m = []) (v : ℚ) :
    Kept f32 shape base had (vals ++ [(m, v)]) m { s with cur := some (.first m v) } where
  now_ge := h.now_ge
  now_fits := h.now_fits
  cur c hc := by
    obtain rfl := Option.some.inj hc
    refine ⟨h.now_ge, le_rfl, fun i hi => ?_, v, [], ?_, rfl⟩
    · have hi : m < i := hi
      rw [valuesAt_append, h.late hi, valuesAt_single, if_neg hi.ne]
      rfl
    · rw [valuesAt_append, show (Cur.first m v).minute = m from rfl, hnone, valuesAt_single, if_pos rfl]
      rfl
  idle hc := by cases hc
  file f hf := (h.file f hf).mono h.till_le
  minutes i hi := by
    have hne : m ≠ i := hi (.first m v) rfl
    rw [minutePoint_value hne]
    exact hall i
  known := by simp

/-- A value is added. -/
theorem Kept.value (h : s.Kept f32 shape base had vals now) (hle : now ≤ m) (hfit : m < 2 ^ 31) (v : ℚ) :
    (s.apply f32 shape (.value m v)).Kept f32 shape base had (vals ++ [(m, v)]) m := by
  have h := h.mono hle hfit
  unfold apply
  dsimp only
  split
  · rename_i c hc
    obtain ⟨h0, hcn, hlater, w, ws, hvals, hmade⟩ := h.cur c hc
    split
    · rename_i hsame
      refine ⟨h.now_ge, hfit, fun c' hc' => ?_, fun hc' => (by cases hc'), fun f hf => ?_, fun i hi => ?_, by simp⟩
      · obtain rfl := Option.some.inj hc'
        have hpush : (c.push v).minute = c.minute := rfl
        refine ⟨h0, hcn, fun i hi => ?_, w, ws ++ [v], ?_, ?_⟩
        · rw [hpush] at hi
          rw [valuesAt_append, hlater i hi, valuesAt_single, if_neg (by omega)]
          rfl
        · rw [hpush, valuesAt_append, hvals, valuesAt_single, if_pos hsame.symm]
          rfl
        · rw [hpush, List.foldl_append, ← hmade]
          rfl
      · have := h.file f hf
        rwa [till, hc] at this
      · have hne : m ≠ i := fun heq => hi (c.push v) rfl (hsame.trans heq)
        rw [minutePoint_value hne]
        refine h.minutes i fun c' hc' => ?_
        rw [← Option.some.inj (hc.symm.trans hc'), hsame]
        exact hne
    · rename_i hdiff
      obtain ⟨hclosed, hall, -⟩ := h.close hc
      exact hclosed.first hall (hlater m (by omega)) v
  · rename_i hnone
    refine h.first (fun i => h.minutes i fun c hc => ?_) (h.idle hnone m le_rfl) v
    rw [hnone] at hc
    cases hc

/-- Everything is flushed: the file holds every minute, and only the current one stays in memory. -/
theorem Kept.flush (h : s.Kept f32 shape base had vals now) (hle : now ≤ m) (hfit : m < 2 ^ 31) :
    (s.apply f32 shape (.flush m)).Kept f32 shape base had vals m ∧
      (∀ i, (s.apply f32 shape (.flush m)).written i = minutePoint f32 shape base vals i) ∧
      (∀ c, (s.apply f32 shape (.flush m)).cur = some c →
        c.minute = m ∧ (s.apply f32 shape (.flush m)).file.isSome = true) := by
  have h := h.mono hle hfit
  unfold apply
  dsimp only
  split
  · rename_i c hc
    obtain ⟨hclosed, hall, hfile⟩ := h.close hc
    obtain ⟨-, hcn, hlater, -⟩ := h.cur c hc
    split
    · rename_i hover
      refine ⟨⟨h.now_ge, hfit, fun c' hc' => (by cases hc'), fun _ i hi => hlater i (hover.trans_le hi), fun f hf => ?_,
        fun i _ => hall i, ?_⟩, hall, fun c' hc' => (by cases hc')⟩
      · exact (hclosed.file f hf).mono hclosed.till_le
      · rw [← hclosed.known, hfile]
        simp
    · rename_i hnot
      refine ⟨hclosed, hall, fun c' hc' => ⟨?_, hfile⟩⟩
      have : c' = c := Option.some.inj (hc'.symm.trans hc)
      rw [this]
      omega
  · rename_i hnone
    refine ⟨h, fun i => h.minutes i fun c hc => ?_, fun c hc => ?_⟩
    · rw [hnone] at hc
      cases hc
    · rw [hnone] at hc
      cases hc

/-! ### Runs -/

/-- Does the event happen in the minute, with the process running? -/
def InMinute (m : ℤ) : SeriesEvent → Prop
  | .value m' _ => m' = m
  | .flush m' => m' = m
  | .restart => False

/-- The value of an event. -/
def valueOf : SeriesEvent → Option (ℤ × ℚ)
  | .value m v => some (m, v)
  | _ => none

/-- The events of a minute. -/
theorem Kept.events {evs : List SeriesEvent} (hevs : ∀ e ∈ evs, InMinute m e) (hle : now ≤ m) (hfit : m < 2 ^ 31)
    (h : s.Kept f32 shape base had vals now) :
    (evs.foldl (Series.apply f32 shape) s).Kept f32 shape base had (vals ++ evs.filterMap valueOf) m := by
  induction evs generalizing s vals now with
  | nil => simpa using h.mono hle hfit
  | cons e evs ih =>
    have hrest : ∀ e' ∈ evs, InMinute m e' := fun e' he' => hevs e' (List.mem_cons_of_mem e he')
    have he := hevs e List.mem_cons_self
    rw [List.foldl_cons, List.filterMap_cons]
    cases e with
    | value m' v =>
      obtain rfl : m' = m := he
      have := ih hrest le_rfl (h.value hle hfit v)
      rwa [List.append_assoc] at this
    | flush m' =>
      obtain rfl : m' = m := he
      exact ih hrest le_rfl (h.flush hle hfit).1
    | restart => exact he.elim

/-- Is the minute in progress one with values? -/
private theorem Kept.cur_none_iff (h : s.Kept f32 shape base had vals m) (hcur : ∀ c, s.cur = some c → c.minute = m) :
    s.cur = none ↔ valuesAt vals m = [] := by
  constructor
  · exact fun hnone => h.idle hnone m le_rfl
  · intro hvals
    cases hc : s.cur with
    | none => rfl
    | some c =>
      obtain ⟨-, -, -, v, vs, hmade, -⟩ := h.cur c hc
      rw [hcur c hc, hvals] at hmade
      cases hmade

/-- The point that a series answers for an index: the minute in progress from its values, any other from the file. -/
def answered (f32 : ℚ → ℚ) (shape : Shape) (base : ℤ → Option Point) (vals : List (ℤ × ℚ)) (now : ℤ) (t : Tier)
    (i : ℤ) : Option Point :=
  if t = .minute then
    if i = now ∧ valuesAt vals now ≠ [] then (ofValues (valuesAt vals i)).map shape.point
    else minutePoint f32 shape base vals i
  else (roll (bucket (minutePoint f32 shape base vals) t i)).map (stored f32 shape)

/-- What a flushed series answers. -/
theorem Kept.pointAt (h : s.Kept f32 shape base had vals m)
    (hall : ∀ i, s.written i = minutePoint f32 shape base vals i)
    (hcur : ∀ c, s.cur = some c → c.minute = m ∧ s.file.isSome = true) {t : Tier} (ht : shape.keeps t = true) {i : ℤ}
    (hi : 0 ≤ i) (hturn : t.index m - t.len < i) : s.pointAt shape t i = answered f32 shape base vals m t i := by
  have hsome : ∀ f, s.file = some f → s.file.filter (fun f => f.shape = shape) = some f := by
    intro f hf
    rw [hf, Option.filter_some, if_pos (by simpa using (h.file f hf).sameShape)]
  have hshown : ∀ f, s.file = some f → (f.rings t).shown t.len i = (f.rings t).written i := by
    intro f hf
    have hfull := (h.file f hf).mono h.till_le
    have hmem : t ∈ Tier.minute :: shape.rolled := by
      rw [Shape.keeps, Bool.or_eq_true, decide_eq_true_eq, List.contains_iff_mem] at ht
      exact List.mem_cons.2 ht
    have := hfull.last_le t hmem
    exact (hfull.holds t hmem).shown_eq hi (by omega)
  have hnone := h.cur_none_iff fun c hc => (hcur c hc).1
  -- what the file answers
  have hfile : ((s.file.filter fun f => f.shape = shape).bind fun f => (f.rings t).shown t.len i) =
      if t = .minute then minutePoint f32 shape base vals i
      else (roll (bucket (minutePoint f32 shape base vals) t i)).map (stored f32 shape) := by
    have hwritten : s.written = minutePoint f32 shape base vals := funext hall
    rw [← hwritten]
    cases hf : s.file with
    | none =>
      have hw : s.written = fun _ => none := by
        funext j
        rw [written, hf]
        rfl
      rw [hw, bucket, List.filterMap_none]
      split <;> rfl
    | some f =>
      have hw : s.written = (f.rings .minute).written := by
        funext j
        rw [written, hf]
        rfl
      rw [← hf, hsome f hf, Option.bind_some, hshown f hf, hw]
      split
      · rename_i ht'
        rw [ht']
      · rename_i ht'
        rw [Shape.keeps, Bool.or_eq_true, decide_eq_true_eq, List.contains_iff_mem] at ht
        exact (h.file f hf).rolled t (ht.resolve_left ht') i hi
  unfold Series.pointAt answered
  split
  · rename_i c hc
    obtain ⟨hsc, hcond⟩ := Option.filter_eq_some_iff.1 hc
    rw [Bool.and_eq_true, decide_eq_true_eq, decide_eq_true_eq] at hcond
    obtain ⟨htm, hci⟩ := hcond
    obtain ⟨-, -, -, v, vs, hvals, hmade⟩ := h.cur c hsc
    have hcm := (hcur c hsc).1
    rw [hcm] at hvals
    have him : i = m := hci.symm.trans hcm
    rw [if_pos htm, if_pos ⟨him, by rw [hvals]; exact List.cons_ne_nil v vs⟩, him, hvals,
      RingFile.ofValues_foldl v vs c.minute, ← hmade]
    rfl
  · rename_i hc
    rw [hfile]
    split
    · rename_i htm
      refine (if_neg fun hcond => ?_).symm
      obtain ⟨him, hvals⟩ := hcond
      cases hsc : s.cur with
      | none => exact hvals (hnone.1 hsc)
      | some c =>
        rw [hsc, Option.filter_some, if_pos (by simp [htm, him, (hcur c hsc).1])] at hc
        cases hc
    · rfl

end Series

namespace History

open Series (answered minutePoint valueOf)

variable {f32 : ℚ → ℚ} {digest : JsString → JsString} {maxSeries : ℕ} {K : Finset SeriesKey}

/-- The values given to a series, each with its minute. -/
def given (key : SeriesKey) (steps : List HistoryStep) : List (ℤ × ℚ) :=
  steps.flatMap fun s => match s.op with
    | .add node values => values.entries.filterMap fun e =>
        if (node, e.1) = key then e.2.map fun v => ((s.time : ℤ) / MIN, v) else none
    | _ => []

/-- Is the step an add or a flush? -/
def steady (s : HistoryStep) : Bool :=
  match s.op with
  | .add _ _ | .flush => true
  | _ => false

/-- The clock does not go back. -/
def NeverBack (steps : List HistoryStep) : Prop := steps.Pairwise fun s s' => s.time ≤ s'.time

instance (steps : List HistoryStep) : Decidable (NeverBack steps) := inferInstanceAs (Decidable (List.Pairwise _ steps))

private theorem calls_of_steady {s : HistoryStep} (hs : steady s = true) : calls s = true := by
  obtain ⟨t, op⟩ := s
  cases op <;> first | rfl | exact hs

/-- The events of an add or a flush are of its minute. -/
private theorem inMinute_eventsOf {s : HistoryStep} (hs : steady s = true) (key : SeriesKey) :
    ∀ e ∈ eventsOf key s, Series.InMinute ((s.time : ℤ) / MIN) e := by
  obtain ⟨t, op⟩ := s
  intro e he
  cases op with
  | add node values =>
    obtain ⟨x, -, hx⟩ := List.mem_filterMap.1 he
    split at hx
    · obtain ⟨v, -, rfl⟩ := Option.map_eq_some_iff.1 hx
      rfl
    · cases hx
  | flush =>
    obtain rfl := List.mem_singleton.1 he
    rfl
  | _ => cases hs

private theorem valueOf_eventsOf (key : SeriesKey) (s : HistoryStep) :
    (eventsOf key s).filterMap valueOf = given key [s] := by
  obtain ⟨t, op⟩ := s
  cases op with
  | add node values =>
    rw [given, List.flatMap_singleton, eventsOf, List.filterMap_filterMap]
    refine List.filterMap_congr fun e _ => ?_
    split
    · cases e.2 <;> rfl
    · rfl
  | _ => rfl

/-- A run of adds and flushes, as a series sees it. -/
theorem kept_run (key : SeriesKey) {shape : Shape} {base : ℤ → Option Point} {had : Prop} {vals : List (ℤ × ℚ)} {now : ℤ} {s : Series}
    {steps : List HistoryStep} (hsteady : ∀ x ∈ steps, steady x = true) {t : ℕ}
    (hsorted : (steps.map HistoryStep.time ++ [t]).Pairwise (· ≤ ·))
    (hnow : ∀ x ∈ steps.map HistoryStep.time ++ [t], now ≤ (x : ℤ) / MIN) (hfit : FitsHeader t)
    (h : s.Kept f32 shape base had vals now) :
    ((steps.flatMap (eventsOf key)).foldl (Series.apply f32 shape) s).Kept f32 shape base had
      (vals ++ given key steps) ((t : ℤ) / MIN) := by
  induction steps generalizing s vals now with
  | nil => simpa [given] using h.mono (hnow t List.mem_cons_self) hfit
  | cons x steps ih =>
    rw [List.map_cons, List.cons_append, List.pairwise_cons] at hsorted
    have hminute : ∀ y ∈ steps.map HistoryStep.time ++ [t], (x.time : ℤ) / MIN ≤ (y : ℤ) / MIN := fun y hy =>
      Int.ediv_le_ediv (by decide) (Int.ofNat_le.2 (hsorted.1 y hy))
    have hx := h.events (inMinute_eventsOf (hsteady x List.mem_cons_self) key)
      (hnow x.time List.mem_cons_self) ((hminute t (List.mem_append_right _ List.mem_cons_self)).trans_lt hfit)
    rw [List.flatMap_cons, List.foldl_append]
    have hgiven : given key (x :: steps) = given key [x] ++ given key steps := by
      rw [given, given, given, List.flatMap_singleton, List.flatMap_cons]
    rw [hgiven, ← List.append_assoc, ← valueOf_eventsOf]
    exact ih (fun y hy => hsteady y (List.mem_cons_of_mem x hy)) hsorted.2 hminute hx

private theorem kept_none {shape : Shape} {base : ℤ → Option Point} (hbase : ∀ i, base i = none) :
    (⟨none, none⟩ : Series).Kept f32 shape base False [] 0 where
  now_ge := le_rfl
  now_fits := by decide
  cur c hc := by cases hc
  idle _ _ _ := rfl
  file f hf := by cases hf
  minutes i _ := (hbase i).symm
  known := by simp

/-- What a query answers about a flushed series. -/
private theorem query_of_kept {h : History} {key : SeriesKey} {base : ℤ → Option Point} {had : Prop}
    {vals : List (ℤ × ℚ)}
    {t t' : ℕ} (hk : (h.series digest key).Kept f32 (shapeOf key.2) base had vals ((t : ℤ) / MIN))
    (hall : ∀ i, (h.series digest key).written i = minutePoint f32 (shapeOf key.2) base vals i)
    (hcur : ∀ c, (h.series digest key).cur = some c →
      c.minute = (t : ℤ) / MIN ∧ (h.series digest key).file.isSome = true)
    {range : Range} (hle : t ≤ t') (hsince : Since1970 range t') [Decidable (had ∨ vals ≠ [])] :
    h.query digest key range t' =
      if (shapeOf key.2).keeps range.tier = true ∧ (had ∨ vals ≠ []) then
        some ⟨range.tier.step * 60, (window range t').map fun i => (i * range.tier.step * 60,
          (answered f32 (shapeOf key.2) base vals ((t : ℤ) / MIN) range.tier i).map Point.rounded)⟩
      else none := by
  have hfilter : (h.series digest key).file.filter (fun f => f.shape = shapeOf key.2) = (h.series digest key).file := by
    cases hf : (h.series digest key).file with
    | none => rfl
    | some f => rw [Option.filter_some, if_pos (by simpa using (hk.file f hf).sameShape)]
  have hnone : ((h.series digest key).file.isNone && (h.series digest key).cur.isNone) = true ↔
      ¬ (had ∨ vals ≠ []) := by
    rw [← hk.known]
    cases (h.series digest key).file <;> cases (h.series digest key).cur <;> simp
  rw [query_eq, hfilter]
  by_cases hkeeps : (shapeOf key.2).keeps range.tier = true
  · rw [hkeeps, Bool.not_true, if_neg Bool.false_ne_true]
    by_cases hknown : had ∨ vals ≠ []
    · rw [if_neg (fun hn => hnone.1 hn hknown), if_pos ⟨rfl, hknown⟩]
      congr 2
      refine List.map_congr_left fun i hi => ?_
      obtain ⟨hlow, -⟩ := mem_window hi
      have hindex : range.tier.index ((t : ℤ) / MIN) ≤ range.tier.index ((t' : ℤ) / MIN) :=
        RingFile.index_mono _ (Int.ediv_le_ediv (by decide) (Int.ofNat_le.2 hle))
      have hcount : (range.count : ℤ) ≤ range.tier.len := by cases range <;> decide
      have hi0 : 0 ≤ i := by
        unfold Since1970 at hsince
        omega
      rw [hk.pointAt hall hcur hkeeps hi0 (by omega)]
    · rw [if_pos (hnone.2 hknown), if_neg fun hc => hknown hc.2]
  · rw [Bool.not_eq_true] at hkeeps
    rw [hkeeps, Bool.not_false, if_pos rfl, if_neg fun hc => Bool.false_ne_true hc.1]

/-! ### Runs that end with a flush -/

variable (f32) in
/-- Adds and flushes, and a last flush. -/
private theorem kept_flushed (hK : Roomy digest maxSeries K) {h : History} (hw : h.Within digest K)
    {steps : List HistoryStep}
    (hsteps : ∀ s ∈ steps, steady s = true ∧ AddsTo K s) {t : ℕ}
    (hsorted : (steps.map HistoryStep.time ++ [t]).Pairwise (· ≤ ·)) (hfit : FitsHeader t) {key : SeriesKey}
    (hkey : key ∈ K) {base : ℤ → Option Point} {had : Prop} {vals : List (ℤ × ℚ)} {now : ℤ}
    (hnow : ∀ x ∈ steps.map HistoryStep.time ++ [t], now ≤ (x : ℤ) / MIN)
    (hk : (h.series digest key).Kept f32 (shapeOf key.2) base had vals now) :
    let h' := Runs.run (step f32 digest maxSeries) h (steps ++ [⟨t, .flush⟩])
    h'.Within digest K ∧
      (h'.series digest key).Kept f32 (shapeOf key.2) base had (vals ++ given key steps) ((t : ℤ) / MIN) ∧
      (∀ i, (h'.series digest key).written i =
        minutePoint f32 (shapeOf key.2) base (vals ++ given key steps) i) ∧
      ∀ c, (h'.series digest key).cur = some c →
        c.minute = (t : ℤ) / MIN ∧ (h'.series digest key).file.isSome = true := by
  intro h'
  have hcalls : ∀ s ∈ steps ++ [⟨t, .flush⟩], calls s = true ∧ AddsTo K s := by
    intro s hs
    rcases List.mem_append.1 hs with hs | hs
    · exact ⟨calls_of_steady (hsteps s hs).1, (hsteps s hs).2⟩
    · obtain rfl := List.mem_singleton.1 hs
      exact ⟨rfl, trivial⟩
  obtain ⟨hw', hseries⟩ := series_run f32 hK hcalls hw
  have hrun := kept_run key (fun x hx => (hsteps x hx).1) hsorted hnow hfit hk
  have heq := hseries key hkey
  rw [List.flatMap_append, List.foldl_append, List.flatMap_singleton] at heq
  obtain ⟨hkept, hall, hcur⟩ := hrun.flush le_rfl hfit
  exact ⟨hw', heq ▸ hkept, heq ▸ hall, heq ▸ hcur⟩

theorem kept_empty (digest : JsString → JsString) (key : SeriesKey) :
    (empty.series digest key).Kept f32 (shapeOf key.2) (fun _ => none) False [] 0 := kept_none fun _ => rfl

private theorem minute_nonneg (t : ℕ) : 0 ≤ (t : ℤ) / MIN := Int.ediv_nonneg (Int.natCast_nonneg t) (by decide)

/-- The times of steps in order. -/
theorem NeverBack.times {steps : List HistoryStep} {s : HistoryStep} (h : NeverBack (steps ++ [s])) :
    (steps.map HistoryStep.time ++ [s.time]).Pairwise (· ≤ ·) := by
  have heq : steps.map HistoryStep.time ++ [s.time] = (steps ++ [s]).map HistoryStep.time := by
    rw [List.map_append, List.map_singleton]
  rw [heq, List.pairwise_map]
  exact h

/-! ### The values of a series -/

/-- The point that the values of a series make at an index of a tier. -/
def meant (shape : Shape) (vals : List (ℤ × ℚ)) (t : Tier) (i : ℤ) : Option Point :=
  if t = .minute then (ofValues (valuesAt vals i)).map shape.point
  else roll (bucket (fun j => ofValues (valuesAt vals j)) t i)

/-- What a query is to answer about a series of these values. -/
def meantAnswer (key : SeriesKey) (vals : List (ℤ × ℚ)) (range : Range) (t : ℕ) : Option Answer :=
  if (shapeOf key.2).keeps range.tier = true ∧ vals ≠ [] then
    some ⟨range.tier.step * 60, (window range t).map fun i =>
      (i * range.tier.step * 60, (meant (shapeOf key.2) vals range.tier i).map Point.rounded)⟩
  else none

/-- With exact numbers in the files, the values are answered as they are. -/
private theorem answered_exact (shape : Shape) (vals : List (ℤ × ℚ)) (now : ℤ) {t : Tier} (ht : shape.keeps t = true)
    (i : ℤ) :
    answered id shape (fun _ => none) vals now t i = meant shape vals t i := by
  have hstored : stored id shape = shape.point := rfl
  have hpoint : minutePoint id shape (fun _ => none) vals = fun j => (ofValues (valuesAt vals j)).map shape.point := by
    funext j
    rw [minutePoint, Option.or_none, hstored]
  unfold answered meant
  rw [hpoint, hstored]
  split
  · split <;> rfl
  · rename_i htm
    have hfull : shape = .full := by
      cases shape
      · rw [Shape.keeps, Bool.or_eq_true, decide_eq_true_eq] at ht
        exact absurd (ht.resolve_left htm) (by cases t <;> decide)
      · rfl
    subst hfull
    have hself : Shape.full.point = id := rfl
    rw [hself, Option.map_id_fun, id_eq]
    rfl

/-- For every sequence of adds and flushes under a clock that does not go back and fits the header, over series that
share no file and keep to the cap: after a flush, every later query of a range that begins in 1970 or later answers what
the values of its series make, to three decimals. -/
theorem query_of_the_values (digest : JsString → JsString) (maxSeries : ℕ) (K : Finset SeriesKey)
    (hK : Roomy digest maxSeries K) (steps : List HistoryStep) (hsteps : ∀ s ∈ steps, steady s = true ∧ AddsTo K s) (t : ℕ)
    (hclock : NeverBack (steps ++ [⟨t, .flush⟩])) (hfit : FitsHeader t) :
    ∀ key ∈ K, ∀ range t', t ≤ t' → Since1970 range t' →
      (Runs.run (step id digest maxSeries) empty (steps ++ [⟨t, .flush⟩])).query digest key range t' =
        meantAnswer key (given key steps) range t' := by
  intro key hkey range t' hle hsince
  obtain ⟨-, hk, hall, hcur⟩ := kept_flushed id hK (within_empty digest K) hsteps hclock.times hfit hkey
    (fun x _ => minute_nonneg x) (kept_empty digest key)
  rw [query_of_kept hk hall hcur hle hsince, meantAnswer, List.nil_append]
  simp only [false_or]
  split
  · rename_i hcond
    congr 2
    refine List.map_congr_left fun i _ => ?_
    rw [answered_exact _ _ _ hcond.1]
  · rfl

/-- A minute of two values, one of one, and a flush in the next. -/
private def threeValues : List HistoryStep := [cpuAt 100 10, cpuAt 100 20, cpuAt 101 (1 / 3)]

private theorem roomy_cpu : Roomy id 600 {nasCpu} where
  files := by
    rw [Finset.coe_singleton]
    exact Set.injOn_singleton _ _
  cap node := (Finset.card_filter_le _ _).trans (by decide)

private theorem addsTo_cpuAt (minute : ℕ) (v : ℚ) : AddsTo {nasCpu} (cpuAt minute v) := by
  intro e he
  obtain rfl : e = (nasCpu.2, some v) := List.mem_singleton.1 he
  exact Finset.mem_singleton_self _

theorem three_values :
    (Runs.run (step id id 600) empty (threeValues ++ [⟨102 * 60000, .flush⟩])).query id nasCpu .d7 (10080 * 60000) =
      meantAnswer nasCpu (given nasCpu threeValues) .d7 (10080 * 60000) := by
  refine query_of_the_values id 600 {nasCpu} roomy_cpu threeValues ?_ (102 * 60000) (by decide) (by decide) nasCpu
    (Finset.mem_singleton_self _) .d7 (10080 * 60000) (by decide) (by decide)
  intro s hs
  simp only [threeValues, List.mem_cons, List.not_mem_nil, or_false] at hs
  rcases hs with rfl | rfl | rfl <;> exact ⟨rfl, addsTo_cpuAt _ _⟩

/-- A value below three decimals is answered as 0. -/
theorem value_below_three_decimals :
    let steps := [cpuAt 100 (1 / 10000), ⟨100 * 60000, .flush⟩]
    meant (shapeOf nasCpu.2) (given nasCpu steps) .minute 100 = some ⟨1 / 10000, 1 / 10000, 1 / 10000⟩ ∧
      ((Runs.run (step id id 600) empty steps).query id nasCpu .h1 (100 * 60000)).bind (fun a => a.points.getLast?) =
        some (100 * 60, some ⟨0, 0, 0⟩) := by
  decide +kernel

/-! ### A stop and a start -/

/-- No minute of the series has values on both sides of the stop, and the point of its minute is not answered from
memory by the one and from the file by the other unless the file has the same three decimals. -/
def Unsplit (f32 : ℚ → ℚ) (key : SeriesKey) (before after : List HistoryStep) (stop last : ℕ) : Prop :=
  (valuesAt (given key before) ((stop : ℤ) / MIN) = [] ∨ valuesAt (given key after) ((stop : ℤ) / MIN) = []) ∧
    ((last : ℤ) / MIN = (stop : ℤ) / MIN → ∀ p, ofValues (valuesAt (given key before) ((stop : ℤ) / MIN)) = some p →
      (stored f32 (shapeOf key.2) p).rounded = ((shapeOf key.2).point p).rounded)

private theorem given_append (key : SeriesKey) (steps steps' : List HistoryStep) :
    given key (steps ++ steps') = given key steps ++ given key steps' := List.flatMap_append

/-- The values of steps are of the minutes of their times. -/
private theorem valuesAt_given_of_ne {key : SeriesKey} {steps : List HistoryStep} {i : ℤ}
    (h : ∀ s ∈ steps, (s.time : ℤ) / MIN ≠ i) : valuesAt (given key steps) i = [] := by
  rw [valuesAt, List.map_eq_nil_iff, List.filter_eq_nil_iff]
  intro x hx hxi
  obtain ⟨s, hs, hxs⟩ := List.mem_flatMap.1 hx
  refine h s hs ?_
  obtain ⟨t, op⟩ := s
  cases op with
  | add node values =>
    obtain ⟨e, -, he⟩ := List.mem_filterMap.1 hxs
    split at he
    · obtain ⟨v, -, rfl⟩ := Option.map_eq_some_iff.1 he
      exact of_decide_eq_true hxi
    · cases he
  | _ => cases hxs

/-- What two halves of the values make, when no minute is in both. -/
private theorem minutePoint_halves {f32 : ℚ → ℚ} {shape : Shape} {vals vals' : List (ℤ × ℚ)}
    (h : ∀ i, valuesAt vals i = [] ∨ valuesAt vals' i = []) :
    minutePoint f32 shape (minutePoint f32 shape (fun _ => none) vals) vals' =
      minutePoint f32 shape (fun _ => none) (vals ++ vals') := by
  funext i
  rw [minutePoint, minutePoint, minutePoint, valuesAt_append, Option.or_none, Option.or_none]
  rcases h i with hi | hi
  · rw [hi, List.nil_append, show ofValues [] = none from rfl, Option.map_none, Option.or_none]
  · rw [hi, List.append_nil, show ofValues [] = none from rfl, Option.map_none, Option.none_or]

/-- What a series answers of two halves of its values, to three decimals. -/
private theorem answered_halves {f32 : ℚ → ℚ} {shape : Shape} {vals vals' : List (ℤ × ℚ)} {now : ℤ}
    (h : ∀ i, valuesAt vals i = [] ∨ valuesAt vals' i = [])
    (hexact : valuesAt vals' now = [] → ∀ p, ofValues (valuesAt vals now) = some p →
      (stored f32 shape p).rounded = (shape.point p).rounded)
    (t : Tier) (i : ℤ) :
    (answered f32 shape (minutePoint f32 shape (fun _ => none) vals) vals' now t i).map Point.rounded =
      (answered f32 shape (fun _ => none) (vals ++ vals') now t i).map Point.rounded := by
  unfold answered
  rw [minutePoint_halves h]
  split
  · by_cases hi : i = now
    · subst hi
      rw [valuesAt_append]
      by_cases hlater : valuesAt vals' i = []
      · -- the one reads the minute from the file, the other may have it in memory
        rw [hlater, List.append_nil, if_neg fun hc => hc.2 rfl]
        split
        · rw [minutePoint, Option.or_none, valuesAt_append, hlater, List.append_nil]
          cases hp : ofValues (valuesAt vals i) with
          | none => rfl
          | some p =>
            rw [Option.map_some, Option.map_some, Option.map_some, Option.map_some, hexact hlater p hp]
        · rfl
      · rw [(h i).resolve_right hlater, List.nil_append]
    · rw [if_neg fun hc => hi hc.1, if_neg fun hc => hi hc.1]
  · rfl

variable (f32) in
/-- A process that is flushed, stopped and started again. -/
private theorem kept_stopped (hK : Roomy digest maxSeries K) {steps : List HistoryStep}
    (hsteps : ∀ s ∈ steps, steady s = true ∧ AddsTo K s) {t : ℕ}
    (hsorted : (steps.map HistoryStep.time ++ [t]).Pairwise (· ≤ ·)) (hfit : FitsHeader t) {key : SeriesKey}
    (hkey : key ∈ K) :
    let h := Runs.run (step f32 digest maxSeries) empty (steps ++ [⟨t, .flush⟩, ⟨t, .restart⟩])
    h.Within digest K ∧
      (h.series digest key).Kept f32 (shapeOf key.2)
        (minutePoint f32 (shapeOf key.2) (fun _ => none) (given key steps)) (False ∨ given key steps ≠ []) []
        ((t : ℤ) / MIN) := by
  intro h
  obtain ⟨hw, hk, hall, hcur⟩ := kept_flushed f32 hK (within_empty digest K) hsteps hsorted hfit hkey
    (fun x _ => minute_nonneg x) (kept_empty digest key)
  have hrun : h = (Runs.run (step f32 digest maxSeries) empty (steps ++ [⟨t, .flush⟩])).step f32 digest maxSeries
      ⟨t, .restart⟩ := by
    rw [show h = Runs.run (step f32 digest maxSeries) empty (steps ++ [⟨t, .flush⟩, ⟨t, .restart⟩]) from rfl,
      show steps ++ [⟨t, .flush⟩, ⟨t, .restart⟩] = steps ++ [⟨t, .flush⟩] ++ [⟨t, .restart⟩] by simp, Runs.run_append]
    rfl
  obtain ⟨hwr, hseries⟩ := series_step f32 hK hw (s := ⟨t, .restart⟩) rfl trivial
  rw [hrun]
  refine ⟨hwr, ?_⟩
  rw [hseries key hkey]
  exact hk.restart hall fun hsome => by
    obtain ⟨c, hc⟩ := Option.isSome_iff_exists.1 hsome
    exact (hcur c hc).2

/-- For every sequence of adds and flushes under a clock that does not go back and fits the header, over series that
share no file and keep to the cap: a series that the stop does not split answers, after a flush, every later query as if
the process had not been stopped. -/
theorem restart_not_seen (f32 : ℚ → ℚ) (digest : JsString → JsString) (maxSeries : ℕ) (K : Finset SeriesKey)
    (hK : Roomy digest maxSeries K) (before after : List HistoryStep)
    (hsteps : ∀ s ∈ before ++ after, steady s = true ∧ AddsTo K s) (stop last : ℕ)
    (hclock : NeverBack (before ++ [⟨stop, .flush⟩, ⟨stop, .restart⟩] ++ after ++ [⟨last, .flush⟩]))
    (hfit : FitsHeader last) :
    ∀ key ∈ K, Unsplit f32 key before after stop last → ∀ range t, last ≤ t → Since1970 range t →
      (Runs.run (step f32 digest maxSeries) empty
          (before ++ [⟨stop, .flush⟩, ⟨stop, .restart⟩] ++ after ++ [⟨last, .flush⟩])).query digest key range t =
        (Runs.run (step f32 digest maxSeries) empty (before ++ after ++ [⟨last, .flush⟩])).query digest key range t := by
  intro key hkey ⟨hsplit, hexact⟩ range t hle hsince
  -- the times on both sides
  rw [List.append_assoc _ after] at hclock
  obtain ⟨hfirst, hrest, hacross⟩ := List.pairwise_append.1 hclock
  have hstop : NeverBack (before ++ [⟨stop, .flush⟩]) :=
    List.Pairwise.sublist (List.Sublist.append_left (List.sublist_append_left [_] [_]) before) hfirst
  have hnever : NeverBack (before ++ after ++ [⟨last, .flush⟩]) := by
    rw [List.append_assoc]
    exact List.Pairwise.sublist (List.Sublist.append_right (List.sublist_append_left before _) _) hclock
  have hbefore : ∀ s ∈ before, (s.time : ℤ) / MIN ≤ (stop : ℤ) / MIN := fun s hs =>
    Int.ediv_le_ediv (by decide) (Int.ofNat_le.2 ((List.pairwise_append.1 hstop).2.2 s hs _ List.mem_cons_self))
  have hafter : ∀ s ∈ after ++ [⟨last, .flush⟩], (stop : ℤ) / MIN ≤ (s.time : ℤ) / MIN := fun s hs =>
    Int.ediv_le_ediv (by decide) (Int.ofNat_le.2 (hacross ⟨stop, .flush⟩ (by simp) s hs))
  have hlast : (stop : ℤ) / MIN ≤ (last : ℤ) / MIN := hafter ⟨last, .flush⟩ (by simp)
  have hempty : ∀ i, valuesAt (given key before) i = [] ∨ valuesAt (given key after) i = [] := by
    intro i
    rcases lt_trichotomy i ((stop : ℤ) / MIN) with hi | rfl | hi
    · exact Or.inr (valuesAt_given_of_ne fun s hs heq => by
        have := hafter s (List.mem_append_left _ hs)
        omega)
    · exact hsplit
    · exact Or.inl (valuesAt_given_of_ne fun s hs heq => by
        have := hbefore s hs
        omega)
  have hmemory : valuesAt (given key after) ((last : ℤ) / MIN) = [] →
      ∀ p, ofValues (valuesAt (given key before) ((last : ℤ) / MIN)) = some p →
        (stored f32 (shapeOf key.2) p).rounded = ((shapeOf key.2).point p).rounded := by
    intro _ p hp
    rcases hlast.eq_or_lt with heq | hlt
    · exact hexact heq.symm p (heq ▸ hp)
    · rw [valuesAt_given_of_ne fun s hs heq => by
        have := hbefore s hs
        omega] at hp
      cases hp
  -- the two runs, as the series sees them
  obtain ⟨hw, hk₀⟩ := kept_stopped f32 hK (t := stop) (fun s hs => hsteps s (List.mem_append_left after hs)) hstop.times
    (hlast.trans_lt hfit) hkey
  obtain ⟨-, hk, hall, hcur⟩ := kept_flushed f32 hK hw (t := last)
    (fun s hs => hsteps s (List.mem_append_right before hs)) (NeverBack.times hrest) hfit hkey (fun x hx => by
      rcases List.mem_append.1 hx with hx | hx
      · obtain ⟨s, hs, rfl⟩ := List.mem_map.1 hx
        exact hafter s (List.mem_append_left _ hs)
      · obtain rfl := List.mem_singleton.1 hx
        exact hlast) hk₀
  obtain ⟨-, hk', hall', hcur'⟩ := kept_flushed f32 hK (within_empty digest K) hsteps hnever.times hfit hkey
    (fun x _ => minute_nonneg x) (kept_empty digest key)
  rw [List.nil_append] at hk hall hk' hall'
  rw [given_append] at hk' hall'
  rw [List.append_assoc _ after, Runs.run_append, query_of_kept hk hall hcur hle hsince,
    query_of_kept hk' hall' hcur' hle hsince]
  have hknown : (False ∨ given key before ≠ []) ∨ given key after ≠ [] ↔
      False ∨ given key before ++ given key after ≠ [] := by
    rw [false_or, false_or, ne_eq, ne_eq, ne_eq, List.append_eq_nil_iff, not_and_or]
  simp only [hknown, answered_halves hempty hmemory]

private def fourth : List HistoryStep := [cpuAt 102 7]

/-- A stop in the middle of ten minutes and of an hour, with the minute in progress over. -/
theorem stop_between_minutes :
    (Runs.run (step id id 600) empty (threeValues ++ [⟨101 * 60000 + 30000, .flush⟩, ⟨101 * 60000 + 30000, .restart⟩] ++
        fourth ++ [⟨103 * 60000, .flush⟩])).query id nasCpu .d7 (10080 * 60000) =
      (Runs.run (step id id 600) empty (threeValues ++ fourth ++ [⟨103 * 60000, .flush⟩])).query id nasCpu .d7
        (10080 * 60000) := by
  refine restart_not_seen id id 600 {nasCpu} roomy_cpu threeValues fourth ?_ (101 * 60000 + 30000) (103 * 60000)
    (by decide) (by decide) nasCpu (Finset.mem_singleton_self _) ⟨Or.inr (by decide +kernel), fun h => ?_⟩ .d7
    (10080 * 60000) (by decide) (by decide)
  · intro s hs
    simp only [threeValues, fourth, List.cons_append, List.nil_append, List.mem_cons, List.not_mem_nil, or_false] at hs
    rcases hs with rfl | rfl | rfl | rfl <;> exact ⟨rfl, addsTo_cpuAt _ _⟩
  · exact absurd h (by decide)

/-- A stop in the middle of a minute: what was added before it is not in the minute's point any more. -/
theorem minute_written_twice :
    let before := [cpuAt 100 10]
    let after := [cpuAt 100 20, ⟨100 * 60000, .flush⟩]
    ((Runs.run (step id id 600) empty (before ++ [⟨100 * 60000, .flush⟩, ⟨100 * 60000, .restart⟩] ++ after)).query id
        nasCpu .h1 (100 * 60000)).bind (fun a => a.points.getLast?) = some (100 * 60, some ⟨20, 20, 20⟩) ∧
      ((Runs.run (step id id 600) empty (before ++ after)).query id nasCpu .h1 (100 * 60000)).bind
        (fun a => a.points.getLast?) = some (100 * 60, some ⟨15, 10, 20⟩) := by
  decide +kernel

end History

end Servitals
