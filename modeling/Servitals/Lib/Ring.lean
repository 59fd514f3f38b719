import Mathlib

/-!
# Ring files

A ring of `len` slots keeps the entries of the last `len` indices of a sequence that is written at ever later
indices: index `i` lies in the slot `i % len`, and the header holds the last index written.  Writing an index clears
the slots of the indices that were passed over, and starts the ring over when the index lies a whole turn back.

The writes are single steps in their order (`putWrites`), since a file is written so; `put` does all of them.
`written` is a history variable: what was last written at each index.  A slot is stamped when it is empty or holds what
was last written at an index of a given range (`Stamped`), and the ring holds all it was given when the slots of its
last turn hold what was written (`Holds`).
-/

/-- A ring: the last index written, `-1` for none, and the entry of each slot. -/
@[ext]
structure SlotRing (α : Type*) where
  last : ℤ
  slots : ℤ → Option α
  written : ℤ → Option α

namespace SlotRing

variable {α : Type*}

/-- One write to a ring. -/
inductive Write (α : Type*) where
  | gap (slot run : ℤ)
  | point (idx : ℤ) (p : Option α)
  | header (idx : ℤ)

/-- The ring without entries. -/
def fresh : SlotRing α := ⟨-1, fun _ => none, fun _ => none⟩

def write (len : ℤ) (r : SlotRing α) : Write α → SlotRing α
  | .gap slot run => { r with slots := fun s => if slot ≤ s ∧ s < slot + run then none else r.slots s }
  | .point idx p =>
    { r with slots := Function.update r.slots (idx.tmod len) p, written := Function.update r.written idx p }
  | .header idx => { r with last := idx }

def writeAll (len : ℤ) (r : SlotRing α) (ws : List (Write α)) : SlotRing α := ws.foldl (write len) r

/-- The entry in the slot of an index. -/
def read (len : ℤ) (r : SlotRing α) (idx : ℤ) : Option α := r.slots (idx.tmod len)

/-- The runs of slots of the indices from `i` to before `till`, at most `n` of them, each up to the end of the ring. -/
def gapRuns (len : ℤ) : ℕ → ℤ → ℤ → List (Write α)
  | 0, _, _ => []
  | n + 1, i, till =>
    if i < till then
      let slot := i.tmod len
      let run := min (till - i) (len - slot)
      .gap slot run :: gapRuns len n (i + run) till
    else []

/-- Gaps for the indices from `since` to before `till`, no more than one turn of them. -/
def fillGaps (len since till : ℤ) : List (Write α) :=
  gapRuns len (till - max since (till - len)).toNat (max since (till - len)) till

/-- The writes that put `p` at the index `idx`; `fits` says which indices the header can hold. -/
def putWrites (len : ℤ) (fits : ℤ → Bool) (r : SlotRing α) (idx : ℤ) (p : Option α) : List (Write α) :=
  let back : Bool := 0 ≤ r.last ∧ idx ≤ r.last - len
  let last := if back then -1 else r.last
  (if back then fillGaps len 0 len else []) ++
    (if 0 ≤ last ∧ last + 1 < idx then fillGaps len (last + 1) idx else []) ++
    (.point idx p :: if last < idx ∧ fits idx then [.header idx] else [])

def put (len : ℤ) (fits : ℤ → Bool) (r : SlotRing α) (idx : ℤ) (p : Option α) : SlotRing α :=
  r.writeAll len (putWrites len fits r idx p)

/-- The entry shown at an index: of the last `len` indices, up to the last one written. -/
def shown (len : ℤ) (r : SlotRing α) (i : ℤ) : Option α :=
  if 0 ≤ r.last ∧ i ≤ r.last ∧ r.last - len < i then r.read len i else none

/-! ### Writes without what they write -/

/-- The write without the entry it puts in its slot. -/
def Write.blank : Write α → Write α
  | .gap slot run => .gap slot run
  | .point idx _ => .point idx none
  | .header idx => .header idx

/-- Where a ring is written, and what its header says, does not depend on its entries. -/
theorem blank_putWrites (len : ℤ) (fits : ℤ → Bool) {r r' : SlotRing α} (h : r.last = r'.last) (idx : ℤ)
    (p p' : Option α) :
    (putWrites len fits r idx p).map Write.blank = (putWrites len fits r' idx p').map Write.blank := by
  unfold putWrites
  rw [h]
  simp only [List.map_append, List.map_cons, Write.blank]

theorem last_write (len : ℤ) {r r' : SlotRing α} (h : r.last = r'.last) {w w' : Write α} (hw : w.blank = w'.blank) :
    (r.write len w).last = (r'.write len w').last := by
  cases w <;> cases w' <;> cases hw <;> first | exact h | rfl

theorem last_writeAll (len : ℤ) {r r' : SlotRing α} (h : r.last = r'.last) {ws ws' : List (Write α)}
    (hws : ws.map Write.blank = ws'.map Write.blank) : (r.writeAll len ws).last = (r'.writeAll len ws').last := by
  induction ws generalizing r r' ws' with
  | nil =>
    obtain rfl := List.map_eq_nil_iff.1 hws.symm
    exact h
  | cons w ws ih =>
    cases ws' with
    | nil => cases hws
    | cons w' ws' =>
      obtain ⟨hw, hrest⟩ := List.cons.inj hws
      exact ih (last_write len h hw) hrest

/-! ### Slots -/

theorem writeAll_append (len : ℤ) (r : SlotRing α) (ws vs : List (Write α)) :
    r.writeAll len (ws ++ vs) = (r.writeAll len ws).writeAll len vs :=
  List.foldl_append

/-- Two indices of one turn that share a slot are one. -/
private theorem eq_of_tmod_eq {len i j : ℤ} (hi : 0 ≤ i) (hj : 0 ≤ j) (hij : i - len < j) (hji : j - len < i)
    (h : i.tmod len = j.tmod len) : i = j := by
  rw [Int.tmod_eq_emod_of_nonneg hi, Int.tmod_eq_emod_of_nonneg hj] at h
  obtain ⟨k, hk⟩ := Int.ModEq.dvd h
  have hlen : 0 < len := by omega
  have hk0 : k = 0 := by
    have h1 : k < 1 := by
      by_contra hc
      have := mul_le_mul_of_nonneg_left (show (1 : ℤ) ≤ k by omega) hlen.le
      omega
    have h2 : -1 < k := by
      by_contra hc
      have := mul_le_mul_of_nonneg_left (show k ≤ (-1 : ℤ) by omega) hlen.le
      omega
    omega
  rw [hk0] at hk
  omega

/-- An index below `till` shares its slot with one of the turn before `till` that is not earlier. -/
private theorem exists_turn {len i till : ℤ} (hlen : 0 < len) (hi : 0 ≤ i) (hit : i < till) :
    ∃ j, i ≤ j ∧ till - len ≤ j ∧ j < till ∧ j.tmod len = i.tmod len := by
  have hpos : 0 ≤ (till - 1 - i) % len := Int.emod_nonneg _ hlen.ne'
  have hlt : (till - 1 - i) % len < len := Int.emod_lt_of_pos _ hlen
  have hle : (till - 1 - i) % len ≤ till - 1 - i := by
    have h := Int.emod_add_mul_ediv (till - 1 - i) len
    have := mul_nonneg hlen.le (Int.ediv_nonneg (show 0 ≤ till - 1 - i by omega) hlen.le)
    omega
  refine ⟨till - 1 - (till - 1 - i) % len, by omega, by omega, by omega, ?_⟩
  rw [Int.tmod_eq_emod_of_nonneg hi, Int.tmod_eq_emod_of_nonneg (by omega), Int.sub_emod, Int.emod_emod,
    ← Int.sub_emod]
  congr 1
  omega

/-- A run that ends with its ring's end or before holds the slots of its own indices. -/
private theorem run_slot {len i j : ℤ} (run : ℤ) (hlen : 0 < len) (hi : 0 ≤ i) (hrun : i.tmod len + run ≤ len)
    (hij : i ≤ j) (hj : j < i + run) : j.tmod len = i.tmod len + (j - i) := by
  rw [Int.tmod_eq_emod_of_nonneg hi] at hrun ⊢
  rw [Int.tmod_eq_emod_of_nonneg (hi.trans hij)]
  have hi' := Int.emod_add_mul_ediv i len
  have hpos : 0 ≤ i % len := Int.emod_nonneg _ hlen.ne'
  calc j % len = (i % len + (j - i) + len * (i / len)) % len := by congr 1; omega
    _ = i % len + (j - i) := by rw [Int.add_mul_emod_self_left, Int.emod_eq_of_lt (by omega) (by omega)]

/-! ### Gaps -/

/-- The writes are gaps. -/
def AreGaps (ws : List (Write α)) : Prop := ∀ w ∈ ws, ∃ slot run, w = .gap slot run

private theorem areGaps_gapRuns (len : ℤ) (n : ℕ) (i till : ℤ) : AreGaps (gapRuns len n i till : List (Write α)) := by
  induction n generalizing i with
  | zero => exact fun w hw => absurd hw List.not_mem_nil
  | succ n ih =>
    unfold gapRuns
    split
    · intro w hw
      rcases List.mem_cons.1 hw with rfl | hw
      · exact ⟨_, _, rfl⟩
      · exact ih _ w hw
    · exact fun w hw => absurd hw List.not_mem_nil

private theorem areGaps_fillGaps (len since till : ℤ) : AreGaps (fillGaps len since till : List (Write α)) :=
  areGaps_gapRuns len _ _ till

/-- The gaps before an index, if there are any. -/
private theorem areGaps_before (len : ℤ) (c : Prop) [Decidable c] (since till : ℤ) :
    AreGaps (if c then fillGaps len since till else [] : List (Write α)) := by
  split
  · exact areGaps_fillGaps len since till
  · exact fun w hw => absurd hw List.not_mem_nil

/-- Gaps empty slots, and change nothing else. -/
theorem AreGaps.writeAll {ws : List (Write α)} (h : AreGaps ws) (len : ℤ) (r : SlotRing α) :
    (r.writeAll len ws).last = r.last ∧ (r.writeAll len ws).written = r.written ∧
      ∀ s, (r.writeAll len ws).slots s = none ∨ (r.writeAll len ws).slots s = r.slots s := by
  induction ws generalizing r with
  | nil => exact ⟨rfl, rfl, fun _ => Or.inr rfl⟩
  | cons w ws ih =>
    obtain ⟨slot, run, rfl⟩ := h w List.mem_cons_self
    obtain ⟨hlast, hwritten, hslots⟩ := ih (fun v hv => h v (List.mem_cons_of_mem _ hv)) (r.write len (.gap slot run))
    refine ⟨hlast, hwritten, fun s => ?_⟩
    rcases hslots s with hs | hs
    · exact Or.inl hs
    · rw [show r.writeAll len (.gap slot run :: ws) = (r.write len (.gap slot run)).writeAll len ws from rfl, hs]
      dsimp only [write]
      split
      · exact Or.inl rfl
      · exact Or.inr rfl

/-- The gaps of a turn's end clear its indices and leave the other indices of the turn. -/
private theorem read_gapRuns {len : ℤ} (hlen : 0 < len) {n : ℕ} {i till : ℤ} (hn : (till - i).toNat ≤ n)
    (r : SlotRing α) (hi : 0 ≤ i) (hturn : till - len ≤ i) {j : ℤ} (hj0 : 0 ≤ j) (hj : till - len ≤ j)
    (hjt : j < till) :
    (r.writeAll len (gapRuns len n i till)).read len j = if i ≤ j then none else r.read len j := by
  induction n generalizing i r with
  | zero => exact (if_neg (by omega)).symm
  | succ n ih =>
    unfold gapRuns
    split
    · have hslot := Int.tmod_lt_of_pos i hlen
      set slot := i.tmod len with hslot'
      set run := min (till - i) (len - slot)
      refine (ih (i := i + run) (by omega) (r.write len (.gap slot run)) (by omega) (by omega)).trans ?_
      by_cases hij : i ≤ j
      · rw [if_pos hij]
        split
        · rfl
        · have := run_slot run hlen hi (by omega) hij (by omega)
          simp only [read, write]
          exact if_pos (by omega)
      · rw [if_neg hij, if_neg (by omega)]
        simp only [read, write]
        refine if_neg fun hs => hij ?_
        -- the slot of `j` lies in the run, so it is the slot of an index of the run, and that is `j`
        have hk : (i + (j.tmod len - slot)).tmod len = j.tmod len :=
          (run_slot run hlen hi (by omega) (by omega) (by omega)).trans (by omega)
        have : j = i + (j.tmod len - slot) := eq_of_tmod_eq hj0 (by omega) (by omega) (by omega) hk.symm
        omega
    · exact (if_neg (by omega)).symm

private theorem read_fillGaps {len : ℤ} (hlen : 0 < len) (r : SlotRing α) {since till : ℤ} (hsince : 0 ≤ since) {j : ℤ}
    (hj0 : 0 ≤ j) (hj : till - len ≤ j) (hjt : j < till) :
    (r.writeAll len (fillGaps len since till)).read len j = if since ≤ j then none else r.read len j := by
  unfold fillGaps
  rw [read_gapRuns hlen le_rfl r (by omega) (by omega) hj0 hj hjt]
  by_cases hs : since ≤ j
  · rw [if_pos hs, if_pos (by omega)]
  · rw [if_neg hs, if_neg (by omega)]

private theorem read_write_point (len : ℤ) (r : SlotRing α) (i j : ℤ) (p : Option α) :
    (r.write len (.point i p)).read len j = if j.tmod len = i.tmod len then p else r.read len j := by
  simp only [read, write, Function.update_apply]

/-! ### Stamped slots -/

/-- Each slot is empty, or holds what was last written at an index after `lo` and up to `hi`. -/
def Stamped (len : ℤ) (r : SlotRing α) (lo hi : ℤ) : Prop :=
  ∀ s, 0 ≤ s → s < len → r.slots s = none ∨
    ∃ i, 0 ≤ i ∧ lo < i ∧ i ≤ hi ∧ i.tmod len = s ∧ r.slots s = r.written i

variable {len : ℤ} {r : SlotRing α} {lo hi : ℤ}

theorem stamped_fresh (len lo hi : ℤ) : Stamped len (fresh : SlotRing α) lo hi := fun _ _ _ => Or.inl rfl

theorem Stamped.mono (h : Stamped len r lo hi) {lo' hi' : ℤ} (hlo : lo' ≤ lo) (hhi : hi ≤ hi') :
    Stamped len r lo' hi' := by
  intro s hs hlt
  rcases h s hs hlt with h | ⟨i, hi0, hil, hih, his, heq⟩
  · exact Or.inl h
  · exact Or.inr ⟨i, hi0, by omega, by omega, his, heq⟩

private theorem Stamped.gaps (h : Stamped len r lo hi) {ws : List (Write α)} (hws : AreGaps ws) :
    Stamped len (r.writeAll len ws) lo hi := by
  obtain ⟨-, hwritten, hslots⟩ := hws.writeAll len r
  intro s hs hlt
  rcases hslots s with hnone | heq
  · exact Or.inl hnone
  · rw [heq, hwritten]
    exact h s hs hlt

/-- A point is stamped; only the slots of the other indices need to be so before it. -/
theorem Stamped.point {idx : ℤ} (p : Option α) (hidx : 0 ≤ idx) (hlo : lo < idx) (hhi : idx ≤ hi)
    (h : ∀ s, 0 ≤ s → s < len → s ≠ idx.tmod len → r.slots s = none ∨
      ∃ i, 0 ≤ i ∧ lo < i ∧ i ≤ hi ∧ i.tmod len = s ∧ r.slots s = r.written i) :
    Stamped len (r.write len (.point idx p)) lo hi := by
  intro s hs hlt
  dsimp only [write]
  by_cases hslot : s = idx.tmod len
  · exact Or.inr ⟨idx, hidx, hlo, hhi, hslot.symm, by rw [hslot, Function.update_self, Function.update_self]⟩
  · rw [Function.update_of_ne hslot]
    rcases h s hs hlt hslot with hnone | ⟨i, hi0, hil, hih, his, heq⟩
    · exact Or.inl hnone
    · refine Or.inr ⟨i, hi0, hil, hih, his, ?_⟩
      have hne : i ≠ idx := fun he => hslot (by rw [← his, he])
      rw [Function.update_of_ne hne, heq]

/-- What a ring shows was last written at the index it is shown at, when the index is of the turn of every stamp. -/
theorem Stamped.shown (hlen : 0 < len) (h : Stamped len r (r.last - len) hi) {i : ℤ} (hi0 : 0 ≤ i)
    (hhi : hi - len < i) : r.shown len i = none ∨ r.shown len i = r.written i := by
  unfold SlotRing.shown
  split
  · have hs : 0 ≤ i.tmod len := Int.tmod_nonneg _ hi0
    rcases h _ hs (Int.tmod_lt_of_pos i hlen) with hnone | ⟨j, hj0, hjl, hjh, hjs, heq⟩
    · exact Or.inl hnone
    · have : j = i := eq_of_tmod_eq hj0 hi0 (by omega) (by omega) hjs
      exact Or.inr (this ▸ heq)
  · exact Or.inl rfl

/-- A later index: with the indices passed over cleared and its point written, the slots are of its own turn. -/
private theorem Stamped.ahead (hlen : 0 < len) (h : Stamped len r (r.last - len) hi) (hlast : 0 ≤ r.last) {idx : ℤ}
    (hidx : r.last < idx) (hhi : hi ≤ idx) (p : Option α) :
    Stamped len ((r.writeAll len (if 0 ≤ r.last ∧ r.last + 1 < idx then fillGaps len (r.last + 1) idx else [])).write
      len (.point idx p)) (idx - len) idx := by
  have hgaps := @areGaps_before α len (0 ≤ r.last ∧ r.last + 1 < idx) _ (r.last + 1) idx
  have hstamped := h.gaps hgaps
  obtain ⟨-, hwritten, -⟩ := hgaps.writeAll len r
  refine .point p (by omega) (by omega) le_rfl fun s hs hlt hslot => ?_
  rcases hstamped s hs hlt with hnone | ⟨i, hi0, hil, hih, his, heq⟩
  · exact Or.inl hnone
  · by_cases hturn : idx - len < i
    · exact Or.inr ⟨i, hi0, hturn, by omega, his, heq⟩
    · -- an index of an earlier turn shares its slot with one that was passed over
      obtain ⟨j, hij, hjl, hjt, hjs⟩ := exists_turn hlen hi0 (show i < idx by omega)
      have hne : j ≠ i := by
        rintro rfl
        refine hslot ?_
        rw [← his, show j = idx - len by omega, Int.tmod_eq_emod_of_nonneg (by omega),
          Int.tmod_eq_emod_of_nonneg (by omega), Int.sub_emod_right]
      have hlater : r.last < j := by
        by_contra hle
        exact hne (eq_of_tmod_eq (by omega) hi0 (by omega) (by omega) hjs)
      have hcleared := read_fillGaps hlen r (show 0 ≤ r.last + 1 by omega) (show 0 ≤ j by omega) hjl hjt
      rw [if_pos (by omega)] at hcleared
      refine Or.inl ?_
      rw [if_pos (by omega), ← his, ← hjs]
      exact hcleared

/-- The writes of a put, as the code branches. -/
private theorem put_cases (len : ℤ) {fits : ℤ → Bool} {idx : ℤ} (hfits : fits idx = true) (r : SlotRing α)
    (p : Option α) (hlast : -1 ≤ r.last) (hidx : 0 ≤ idx) :
    (0 ≤ r.last ∧ idx ≤ r.last - len ∧ r.put len fits idx p =
        ((r.writeAll len (fillGaps len 0 len)).write len (.point idx p)).write len (.header idx)) ∨
      (r.last - len < idx ∧ idx ≤ r.last ∧ r.put len fits idx p = r.write len (.point idx p)) ∨
      (r.last < idx ∧ r.put len fits idx p = ((r.writeAll len
        (if 0 ≤ r.last ∧ r.last + 1 < idx then fillGaps len (r.last + 1) idx else [])).write len (.point idx p)).write
          len (.header idx)) := by
  unfold put putWrites
  by_cases hback : 0 ≤ r.last ∧ idx ≤ r.last - len
  · refine Or.inl ⟨hback.1, hback.2, ?_⟩
    simp only [hback, decide_true, if_true, hfits, and_true, writeAll_append]
    rw [if_neg (by omega), if_pos (by omega)]
    rfl
  · simp only [hback, decide_false, Bool.false_eq_true, if_false, hfits, and_true, List.nil_append, writeAll_append]
    by_cases hle : idx ≤ r.last
    · refine Or.inr (Or.inl ⟨by omega, hle, ?_⟩)
      rw [if_neg (by omega), if_neg (by omega)]
      rfl
    · refine Or.inr (Or.inr ⟨by omega, ?_⟩)
      rw [if_pos (show r.last < idx by omega)]
      rfl

/-- Under any clock, a put leaves each slot empty or with what was last written at its index of the last turn. -/
theorem Stamped.put (hlen : 0 < len) {fits : ℤ → Bool} {idx : ℤ} (hfits : fits idx = true)
    (h : Stamped len r (r.last - len) r.last) (hlast : -1 ≤ r.last) (hidx : 0 ≤ idx) (p : Option α) :
    Stamped len (r.put len fits idx p) ((r.put len fits idx p).last - len) (r.put len fits idx p).last ∧
      -1 ≤ (r.put len fits idx p).last := by
  rcases put_cases len hfits r p hlast hidx with ⟨-, hback, hput⟩ | ⟨hturn, hle, hput⟩ | ⟨hlt, hput⟩
  · rw [hput]
    refine ⟨?_, show -1 ≤ idx by omega⟩
    have hempty : ∀ s, 0 ≤ s → s < len → (r.writeAll len (fillGaps len 0 len)).slots s = none := by
      intro s hs hlt
      have hcleared := read_fillGaps hlen r le_rfl hs (show len - len ≤ s by omega) hlt
      rw [if_pos hs] at hcleared
      rw [← hcleared, read, Int.tmod_eq_of_lt hs hlt]
    exact Stamped.point p hidx (show idx - len < idx by omega) le_rfl fun s hs hlt _ => Or.inl (hempty s hs hlt)
  · rw [hput]
    exact ⟨.point p hidx hturn hle fun s hs hlt _ => h s hs hlt, hlast⟩
  · rw [hput]
    refine ⟨?_, show -1 ≤ idx by omega⟩
    by_cases hnone : r.last < 0
    · -- nothing was written: every slot is empty
      rw [if_neg (by omega)]
      refine Stamped.point p hidx (show idx - len < idx by omega) le_rfl fun s hs hlt _ => ?_
      rcases h s hs hlt with hnone | ⟨i, hi0, -, hih, -⟩
      · exact Or.inl hnone
      · omega
    · exact h.ahead hlen (by omega) hlt hlt.le p

/-- Every point of the ring's other slots was written in the turn that ends with the index. -/
def InTurn (len : ℤ) (r : SlotRing α) (idx : ℤ) : Prop :=
  ∀ s, 0 ≤ s → s < len → s ≠ idx.tmod len → r.slots s = none ∨
    ∃ i, 0 ≤ i ∧ idx - len < i ∧ i ≤ idx ∧ i.tmod len = s ∧ r.slots s = r.written i

/-- A put of the last index or a later one that stops after any of its writes leaves each slot empty or with what was
last written at an index after the header's turn.  A ring without a header needs its points in the turn of the put. -/
theorem Stamped.take (hlen : 0 < len) (fits : ℤ → Bool) (h : Stamped len r (r.last - len) hi) (hlast : -1 ≤ r.last)
    {idx : ℤ} (hidx : 0 ≤ idx) (hle : r.last ≤ idx) (hhi : hi ≤ idx) (hnew : r.last < 0 → InTurn len r idx)
    (p : Option α) (k : ℕ) {r' : SlotRing α} (hr' : r' = r.writeAll len ((putWrites len fits r idx p).take k)) :
    Stamped len r' (r'.last - len) idx ∧ -1 ≤ r'.last ∧ r'.last ≤ idx ∧
      (r'.written = r.written ∨ r'.written = Function.update r.written idx p) := by
  set gaps : List (Write α) := if 0 ≤ r.last ∧ r.last + 1 < idx then fillGaps len (r.last + 1) idx else [] with hgaps
  have hare : AreGaps gaps := areGaps_before len _ _ _
  have hback : decide (0 ≤ r.last ∧ idx ≤ r.last - len) = false := decide_eq_false (by omega)
  have hwrites : putWrites len fits r idx p =
      gaps ++ .point idx p :: if r.last < idx ∧ fits idx then [.header idx] else [] := by
    simp only [putWrites, hback, Bool.false_eq_true, if_false, List.nil_append, hgaps]
  rw [hwrites] at hr'
  by_cases hk : k ≤ gaps.length
  · have htake : AreGaps (gaps.take k) := fun w hw => hare w (List.mem_of_mem_take hw)
    obtain ⟨hsame, hwritten, -⟩ := htake.writeAll len r
    rw [List.take_append_of_le_length hk] at hr'
    rw [hr', hsame, hwritten]
    exact ⟨(h.gaps htake).mono le_rfl hhi, hlast, hle, Or.inl rfl⟩
  · obtain ⟨n, rfl⟩ : ∃ n, k = gaps.length + (n + 1) := ⟨k - gaps.length - 1, by omega⟩
    obtain ⟨hsame, hwritten, -⟩ := hare.writeAll len r
    rw [List.take_length_add_append, List.take_succ_cons, writeAll_append] at hr'
    set r₁ := (r.writeAll len gaps).write len (.point idx p) with hr₁
    have hlast₁ : r₁.last = r.last := hsame
    have hwritten₁ : r₁.written = Function.update r.written idx p := by
      rw [hr₁]
      dsimp only [write]
      rw [hwritten]
    have hstamped₁ : Stamped len r₁ (r.last - len) idx :=
      .point p hidx (by omega) le_rfl fun s hs hlt _ => (h.gaps hare).mono le_rfl hhi s hs hlt
    have hr'₁ : r' = r₁.writeAll len ((if r.last < idx ∧ fits idx then [.header idx] else []).take n) := hr'
    by_cases hheader : (r.last < idx ∧ fits idx = true) ∧ n ≠ 0
    · obtain ⟨m, rfl⟩ := Nat.exists_eq_succ_of_ne_zero hheader.2
      rw [if_pos hheader.1, List.take_succ_cons, List.take_nil] at hr'₁
      rw [hr'₁]
      refine ⟨?_, show -1 ≤ idx by omega, le_rfl, Or.inr hwritten₁⟩
      by_cases hnone : r.last < 0
      · have hnil : gaps = [] := by rw [hgaps, if_neg (by omega)]
        rw [hr₁, hnil]
        exact Stamped.point p hidx (show idx - len < idx by omega) le_rfl fun s hs hlt hne =>
          hnew hnone s hs hlt hne
      · exact h.ahead hlen (by omega) hheader.1.1 hhi p
    · have hsame' : r' = r₁ := by
        rw [hr'₁]
        rcases not_and_or.1 hheader with hno | hno
        · rw [if_neg hno, List.take_nil]
          rfl
        · rw [not_not.1 hno, List.take_zero]
          rfl
      rw [hsame', hlast₁]
      exact ⟨hstamped₁, hlast, hle, Or.inr hwritten₁⟩

/-! ### What a ring holds -/

/-- Nothing was written after the last index, and the last `len` indices are in their slots. -/
structure Holds (len : ℤ) (r : SlotRing α) : Prop where
  last_ge : -1 ≤ r.last
  early : ∀ i < 0, r.written i = none
  ahead : ∀ i, r.last < i → r.written i = none
  kept : ∀ i, 0 ≤ i → r.last - len < i → i ≤ r.last → r.read len i = r.written i
  blank : r.last < 0 → ∀ s, r.slots s = none

theorem holds_fresh (len : ℤ) : Holds len (fresh : SlotRing α) where
  last_ge := le_rfl
  early _ _ := rfl
  ahead _ _ := rfl
  kept _ _ _ _ := rfl
  blank _ _ := rfl

/-- What a ring shows is what was written, for the last `len` indices and the ones to come. -/
theorem Holds.shown_eq (h : Holds len r) {i : ℤ} (hi : 0 ≤ i) (hturn : r.last - len < i) :
    r.shown len i = r.written i := by
  unfold shown
  split
  · rename_i hc
    exact h.kept i hi hturn hc.2.1
  · exact (h.ahead i (by omega)).symm

/-- The gaps before an index leave the ring as it was meant at every other index of the new turn. -/
private theorem Holds.read_gaps (hlen : 0 < len) (h : Holds len r) {idx j : ℤ} (hj : 0 ≤ j) (hne : j ≠ idx)
    (hturn : max r.last idx - len < j) (hjm : j ≤ max r.last idx) :
    (r.writeAll len (if 0 ≤ r.last ∧ r.last + 1 < idx then fillGaps len (r.last + 1) idx else [])).read len j =
      r.written j := by
  split
  · rename_i hc
    rw [read_fillGaps hlen r (by omega) hj (by omega) (by omega)]
    split
    · exact (h.ahead j (by omega)).symm
    · exact h.kept j hj (by omega) (by omega)
  · rename_i hc
    rw [show r.writeAll len [] = r from rfl]
    by_cases hlast : j ≤ r.last
    · exact h.kept j hj (by omega) hlast
    · rw [h.ahead j (by omega)]
      exact h.blank (by omega) _

/-- Writing an index of the last turn, or a later one, writes it and nothing else. -/
theorem Holds.put (hlen : 0 < len) {fits : ℤ → Bool} (h : Holds len r) {idx : ℤ} (hidx : 0 ≤ idx)
    (hturn : r.last - len < idx) (hfits : fits idx = true) (p : Option α) :
    Holds len (r.put len fits idx p) ∧ (r.put len fits idx p).last = max r.last idx ∧
      (r.put len fits idx p).written = Function.update r.written idx p := by
  set r₁ := r.writeAll len (if 0 ≤ r.last ∧ r.last + 1 < idx then fillGaps len (r.last + 1) idx else []) with hr₁
  have hgaps : r₁.written = r.written := ((areGaps_before len _ _ _).writeAll len r).2.1
  have hput : (r.put len fits idx p).last = max r.last idx ∧
      (r.put len fits idx p).written = Function.update r.written idx p ∧
      ∀ j, (r.put len fits idx p).read len j = (r₁.write len (.point idx p)).read len j := by
    rcases put_cases len hfits r p h.last_ge hidx with ⟨hnn, hback, -⟩ | ⟨-, hle, hput⟩ | ⟨hlt, hput⟩
    · omega
    · have hr : r₁ = r := by rw [hr₁, if_neg (by omega)]; rfl
      rw [hput, hr]
      exact ⟨(max_eq_left hle).symm, rfl, fun _ => rfl⟩
    · rw [hput, ← hr₁]
      refine ⟨(max_eq_right hlt.le).symm, ?_, fun _ => rfl⟩
      show Function.update r₁.written idx p = _
      rw [hgaps]
  obtain ⟨hlast, hwritten, hread⟩ := hput
  refine ⟨⟨by have := h.last_ge; omega, fun i hi => ?_, fun i hi => ?_, fun i hi hlo hhi => ?_, fun hneg => ?_⟩, hlast,
    hwritten⟩
  · rw [hwritten, Function.update_of_ne (by omega), h.early i hi]
  · rw [hwritten, Function.update_of_ne (by omega), h.ahead i (by omega)]
  · rw [hread, read_write_point, hwritten]
    by_cases hne : i = idx
    · rw [hne, if_pos rfl, Function.update_self]
    · rw [Function.update_of_ne hne, if_neg fun hs => hne (eq_of_tmod_eq hi hidx (by omega) (by omega) hs)]
      exact h.read_gaps hlen hi hne (by omega) (by omega)
  · omega

end SlotRing
