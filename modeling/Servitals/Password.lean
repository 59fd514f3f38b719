import Servitals.Lib.Runs

/-!
# Password hashes at once

`withSlot` of `hub/lib/password.js`: a request for a hash takes a slot when one is free and waits for one otherwise.
A request arrives, its computation ends, its slot is given back, and a waiter that was woken resumes: steps of their
own, since the code between two awaits runs at once, but the promise of a woken waiter is resumed later.

Without a newcomer between a wake and its resumption, at most `MAX_ACTIVE` computations run (`slots_kept`); a newcomer
there takes the slot that the waiter takes too.
-/

namespace Servitals

def MAX_ACTIVE : ℕ := 2

/-- The requests by what they are at: `waiting` sleep, `woken` are not resumed yet, `ended` have their result but did not
give the slot back. -/
structure Slots where
  active : ℕ
  waiting : List ℕ
  woken : List ℕ
  running : List ℕ
  ended : List ℕ
  served : List ℕ
  deriving DecidableEq

namespace Slots

def start : Slots := ⟨0, [], [], [], [], []⟩

/-- Is the request none that arrived before? -/
def New (s : Slots) (n : ℕ) : Prop := n ∉ s.waiting ++ s.woken ++ s.running ++ s.ended ++ s.served

instance (s : Slots) (n : ℕ) : Decidable (s.New n) := inferInstanceAs (Decidable (_ ∉ _))

/-- A request has its slot: its computation starts. -/
def enter (s : Slots) (n : ℕ) : Slots := { s with active := s.active + 1, running := s.running ++ [n] }

def arrive (s : Slots) (n : ℕ) : Slots :=
  if s.New n then
    if MAX_ACTIVE ≤ s.active then { s with waiting := s.waiting ++ [n] } else s.enter n
  else s

/-- The computation of a request ends, with a key or an error. -/
def finish (s : Slots) (n : ℕ) : Slots :=
  if n ∈ s.running then { s with running := s.running.erase n, ended := s.ended ++ [n] } else s

/-- The `finally` of a request: its slot is free, and the first waiter is woken. -/
def release (s : Slots) (n : ℕ) : Slots :=
  if n ∈ s.ended then
    { s with
      active := s.active - 1
      ended := s.ended.erase n
      served := s.served ++ [n]
      waiting := s.waiting.tail
      woken := s.woken ++ s.waiting.head?.toList }
  else s

/-- A woken waiter goes on behind its `await`. -/
def resume (s : Slots) (n : ℕ) : Slots :=
  if n ∈ s.woken then enter { s with woken := s.woken.erase n } n else s

inductive Step
  | arrive (n : ℕ)
  | finish (n : ℕ)
  | release (n : ℕ)
  | resume (n : ℕ)

def step (s : Slots) : Step → Slots
  | .arrive n => s.arrive n
  | .finish n => s.finish n
  | .release n => s.release n
  | .resume n => s.resume n

/-- A new request finds a slot free that a woken waiter is on its way to. -/
def Overtakes (s : Slots) (n : ℕ) : Prop := s.New n ∧ s.active < MAX_ACTIVE ∧ MAX_ACTIVE ≤ s.active + s.woken.length

instance (s : Slots) (n : ℕ) : Decidable (s.Overtakes n) := inferInstanceAs (Decidable (_ ∧ _))

/-- A step that is no such arrival. -/
def inTurn (s : Slots) : Step → Prop
  | .arrive n => ¬ s.Overtakes n
  | _ => True

instance (s : Slots) : (x : Step) → Decidable (s.inTurn x)
  | .arrive n => inferInstanceAs (Decidable (¬ s.Overtakes n))
  | .finish _ | .release _ | .resume _ => .isTrue trivial

/-- What the slots are for: no more computations than slots, none counted when all are over, and nobody asleep while a
slot is free that no woken waiter is on its way to. -/
structure Kept (s : Slots) : Prop where
  bound : s.active ≤ MAX_ACTIVE ∧ s.running.length ≤ MAX_ACTIVE
  zero : s.waiting = [] → s.woken = [] → s.running = [] → s.ended = [] → s.active = 0
  awake : s.waiting ≠ [] → MAX_ACTIVE ≤ s.active + s.woken.length

instance (s : Slots) : Decidable s.Kept :=
  decidable_of_iff ((s.active ≤ MAX_ACTIVE ∧ s.running.length ≤ MAX_ACTIVE) ∧
      (s.waiting = [] → s.woken = [] → s.running = [] → s.ended = [] → s.active = 0) ∧
      (s.waiting ≠ [] → MAX_ACTIVE ≤ s.active + s.woken.length))
    ⟨fun h => ⟨h.1, h.2.1, h.2.2⟩, fun h => ⟨h.bound, h.zero, h.awake⟩⟩

/-! ### The invariants -/

/-- What holds in every run: the count is of the requests that hold a slot, and nobody sleeps while a slot is free. -/
structure Sound (s : Slots) : Prop where
  counted : s.active = s.running.length + s.ended.length
  awake : s.waiting ≠ [] → MAX_ACTIVE ≤ s.active + s.woken.length

theorem sound_start : start.Sound := ⟨rfl, fun h => absurd rfl h⟩

variable {s : Slots}

theorem Sound.enter (hs : s.Sound) (n : ℕ) : (s.enter n).Sound where
  counted := by
    show s.active + 1 = (s.running ++ [n]).length + s.ended.length
    rw [List.length_append, hs.counted, List.length_singleton]
    omega
  awake hw := by
    have := hs.awake hw
    show MAX_ACTIVE ≤ s.active + 1 + s.woken.length
    omega

theorem Sound.step (hs : s.Sound) (x : Step) : (s.step x).Sound := by
  cases x with
  | arrive n =>
    show (s.arrive n).Sound
    unfold arrive
    split
    · split
      · rename_i hfull
        exact ⟨hs.counted, fun _ => Nat.le_add_right_of_le hfull⟩
      · exact hs.enter n
    · exact hs
  | finish n =>
    show (s.finish n).Sound
    unfold finish
    split
    · rename_i hn
      have hpos := List.length_pos_of_mem hn
      refine ⟨?_, hs.awake⟩
      show s.active = (s.running.erase n).length + (s.ended ++ [n]).length
      rw [List.length_erase_of_mem hn, List.length_append, List.length_singleton, hs.counted]
      omega
    · exact hs
  | release n =>
    show (s.release n).Sound
    unfold release
    split
    · rename_i hn
      have hpos := List.length_pos_of_mem hn
      have hcounted := hs.counted
      refine ⟨?_, fun hw => ?_⟩
      · show s.active - 1 = s.running.length + (s.ended.erase n).length
        rw [List.length_erase_of_mem hn]
        omega
      · -- the slot that is free is the first waiter's
        show MAX_ACTIVE ≤ s.active - 1 + (s.woken ++ s.waiting.head?.toList).length
        cases hwaiting : s.waiting with
        | nil => exact absurd (congrArg List.tail hwaiting) hw
        | cons m ms =>
          have := hs.awake (hwaiting ▸ List.cons_ne_nil m ms)
          rw [List.length_append, List.head?_cons, Option.toList_some, List.length_singleton]
          omega
    · exact hs
  | resume n =>
    show (s.resume n).Sound
    unfold resume
    split
    · rename_i hn
      refine ⟨?_, fun hw => ?_⟩
      · show s.active + 1 = (s.running ++ [n]).length + s.ended.length
        rw [List.length_append, hs.counted, List.length_singleton]
        omega
      · have := hs.awake hw
        have hpos := List.length_pos_of_mem hn
        show MAX_ACTIVE ≤ s.active + 1 + (s.woken.erase n).length
        rw [List.length_erase_of_mem hn]
        omega
    · exact hs

/-- The slots taken and those that woken waiters are on their way to are no more than there are. -/
private theorem room_step (hroom : s.active + s.woken.length ≤ MAX_ACTIVE) {x : Step} (hx : s.inTurn x) (hs : s.Sound) :
    (s.step x).active + (s.step x).woken.length ≤ MAX_ACTIVE := by
  cases x with
  | arrive n =>
    show (s.arrive n).active + (s.arrive n).woken.length ≤ MAX_ACTIVE
    unfold arrive
    split
    · rename_i hnew
      split
      · exact hroom
      · rename_i hfree
        have hturn : s.active + s.woken.length < MAX_ACTIVE := by
          by_contra hover
          exact hx ⟨hnew, not_le.1 hfree, not_lt.1 hover⟩
        show s.active + 1 + s.woken.length ≤ MAX_ACTIVE
        omega
    · exact hroom
  | finish n =>
    show (s.finish n).active + (s.finish n).woken.length ≤ MAX_ACTIVE
    unfold finish
    split <;> exact hroom
  | release n =>
    show (s.release n).active + (s.release n).woken.length ≤ MAX_ACTIVE
    unfold release
    split
    · rename_i hn
      have hpos := List.length_pos_of_mem hn
      have hcounted := hs.counted
      have hone : s.waiting.head?.toList.length ≤ 1 := by cases s.waiting <;> simp
      show s.active - 1 + (s.woken ++ s.waiting.head?.toList).length ≤ MAX_ACTIVE
      rw [List.length_append]
      omega
    · exact hroom
  | resume n =>
    show (s.resume n).active + (s.resume n).woken.length ≤ MAX_ACTIVE
    unfold resume
    split
    · rename_i hn
      have hpos := List.length_pos_of_mem hn
      show s.active + 1 + (s.woken.erase n).length ≤ MAX_ACTIVE
      rw [List.length_erase_of_mem hn]
      omega
    · exact hroom

/-- The woken waiters resume: each takes a slot. -/
private theorem active_resumes (s : Slots) :
    ((s.woken.map Step.resume).foldl step s).active = s.active + s.woken.length := by
  suffices h : ∀ (l : List ℕ) (s : Slots), s.woken = l →
      ((l.map Step.resume).foldl step s).active = s.active + l.length from h s.woken s rfl
  intro l
  induction l with
  | nil => exact fun s _ => rfl
  | cons n l ih =>
    intro s hl
    have hstep : s.step (.resume n) = enter { s with woken := l } n := by
      show s.resume n = _
      rw [resume, if_pos (hl ▸ List.mem_cons_self), hl, List.erase_cons_head]
    rw [List.map_cons, List.foldl_cons, hstep, ih _ rfl, List.length_cons]
    show s.active + 1 + l.length = s.active + (l.length + 1)
    omega

/-- **Slots.**  For every order of arrivals, ends, releases and resumptions in which no request arrives on a free slot
that a woken waiter is on its way to, at most `MAX_ACTIVE` computations run, the count is zero when all are over and
nobody is left asleep.  After a request that does arrive so, the woken waiters resume and are too many: more slots are
taken than there are. -/
theorem slots_kept (steps : List Step) :
    let s := Runs.run step start steps
    (Runs.Meets step inTurn start steps → s.Kept) ∧
      ∀ n, s.Overtakes n → MAX_ACTIVE < (Runs.run step (s.step (.arrive n)) (s.woken.map .resume)).active := by
  intro s
  refine ⟨fun h => ?_, fun n hn => ?_⟩
  · have hinv : s.Sound ∧ s.active + s.woken.length ≤ MAX_ACTIVE := by
      refine h.invariant (I := fun s => s.Sound ∧ s.active + s.woken.length ≤ MAX_ACTIVE) ?_ ⟨sound_start, Nat.zero_le _⟩
      rintro w x ⟨hw, hroom⟩ hx
      exact ⟨hw.step x, room_step hroom hx hw⟩
    obtain ⟨hsound, hroom⟩ := hinv
    have hcounted := hsound.counted
    refine ⟨⟨by omega, by omega⟩, fun _ _ hr he => ?_, hsound.awake⟩
    rw [hcounted, hr, he]
    rfl
  · obtain ⟨hnew, hfree, hover⟩ := hn
    have harrive : s.step (.arrive n) = s.enter n := by
      show s.arrive n = _
      rw [arrive, if_pos hnew, if_neg (not_le.2 hfree)]
    have hactive := active_resumes (s.enter n)
    rw [harrive]
    show MAX_ACTIVE < ((((s.enter n).woken).map Step.resume).foldl step (s.enter n)).active
    rw [hactive]
    show MAX_ACTIVE < s.active + 1 + s.woken.length
    omega

/-- A third computation runs when a request arrives after a release and before the waiter that it woke resumes. -/
def crowded : List Step := [.arrive 1, .arrive 2, .arrive 3, .finish 1, .release 1, .arrive 4, .resume 3]

theorem crowded_not_kept : ¬ (Runs.run step start crowded).Kept ∧ (Runs.run step start crowded).running = [2, 4, 3] := by
  decide

theorem slots_kept_three : (Runs.run step start [.arrive 1, .arrive 2, .arrive 3, .finish 1, .release 1, .resume 3]).Kept ∧
    MAX_ACTIVE < (Runs.run step ((Runs.run step start [.arrive 1, .arrive 2, .arrive 3, .finish 1, .release 1]).step
      (.arrive 4)) ((Runs.run step start [.arrive 1, .arrive 2, .arrive 3, .finish 1, .release 1]).woken.map .resume)).active :=
  ⟨(slots_kept [.arrive 1, .arrive 2, .arrive 3, .finish 1, .release 1, .resume 3]).1 (by decide),
    (slots_kept [.arrive 1, .arrive 2, .arrive 3, .finish 1, .release 1]).2 4 (by decide)⟩

end Slots

end Servitals
