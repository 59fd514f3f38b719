import Mathlib.Logic.Relation
import Servitals.Lib.Flights

/-!
# Lanes

A lane is a queue with one worker, hired when something is queued and gone when it finds the queue empty.  It takes the
things of the queue from its head, tries each one time or more and lets it go before the next; a thing may be skipped,
and a queue that grows past its bound drops its head.  `Move` says what can happen; `Sound` is what holds of every lane
that began empty, told by its log.
-/

namespace Lane

inductive Mark (α : Type*)
  | queued (x : α)
  | dropped (x : α)
  | skipped (x : α)
  | attempt (x : α) (i : ℕ)
  | finish (x : α)

/-- What the worker does: there is none, it is between two things, or it tried one so many times. -/
inductive Worker (α : Type*)
  | gone
  | ready
  | busy (x : α) (tries : ℕ)

end Lane

structure Lane (α : Type*) where
  items : List α
  worker : Lane.Worker α
  log : List (Lane.Mark α)

namespace Lane

variable {α : Type*}

def empty : Lane α := ⟨[], .gone, []⟩

namespace Mark

def queued? : Mark α → Option α
  | queued x => some x
  | _ => none

/-- What leaves the queue. -/
def left? : Mark α → Option α
  | dropped x => some x
  | skipped x => some x
  | attempt x i => if i = 0 then some x else none
  | _ => none

def flight? : Mark α → Option (Flights.Mark α)
  | attempt x i => some (.attempt x i)
  | finish x => some (.finish x)
  | _ => none

end Mark

/-- What was queued, in order. -/
def queued (ms : List (Mark α)) : List α := ms.filterMap Mark.queued?

/-- What left the queue, in order. -/
def left (ms : List (Mark α)) : List α := ms.filterMap Mark.left?

/-- What the worker tried and let go. -/
def flights (ms : List (Mark α)) : List (Flights.Mark α) := ms.filterMap Mark.flight?

private theorem queued_snoc (ms : List (Mark α)) (m : Mark α) : queued (ms ++ [m]) = queued ms ++ m.queued?.toList := by
  cases m <;> simp [queued, Mark.queued?]

private theorem left_snoc (ms : List (Mark α)) (m : Mark α) : left (ms ++ [m]) = left ms ++ m.left?.toList := by
  rw [left, List.filterMap_append, ← left, List.filterMap_cons]
  cases m.left? <;> rfl

private theorem flights_snoc (ms : List (Mark α)) (m : Mark α) :
    flights (ms ++ [m]) = flights ms ++ m.flight?.toList := by
  cases m <;> simp [flights, Mark.flight?]

/-- What is tried for the first time left the queue. -/
private theorem firsts_sublist (ms : List (Mark α)) : (Flights.firsts (flights ms)).Sublist (left ms) := by
  induction ms using List.reverseRecOn with
  | nil => exact .slnil
  | append_singleton ms m ih =>
    have hone : (Flights.firsts m.flight?.toList).Sublist m.left?.toList := by
      cases m with
      | attempt x i =>
        cases i with
        | zero => exact List.Sublist.refl _
        | succ i => exact List.nil_sublist _
      | queued x | dropped x | skipped x | finish x => exact List.nil_sublist _
    rw [flights_snoc, left_snoc, Flights.firsts_append]
    exact ih.append hone

/-- The worker after something was queued: one is hired where there is none. -/
def Worker.hired : Worker α → Worker α
  | gone => ready
  | w => w

/-- What the worker is trying, and how often it did. -/
def Worker.trying : Worker α → Option (α × ℕ)
  | busy x n => some (x, n)
  | _ => none

@[simp]
theorem Worker.trying_hired (w : Worker α) : w.hired.trying = w.trying := by cases w <;> rfl

private theorem Worker.hired_eq_busy {w : Worker α} {x : α} {n : ℕ} : w.hired = busy x n ↔ w = busy x n := by
  cases w <;> simp [Worker.hired]

theorem Worker.hired_of_ne_gone {w : Worker α} (h : w ≠ gone) : w.hired = w := by
  cases w with
  | gone => exact absurd rfl h
  | ready => rfl
  | busy x n => rfl

private theorem Worker.hired_ne_gone (w : Worker α) : w.hired ≠ gone := by cases w <;> simp [Worker.hired]

/-- What can happen to a lane with at most `cap` things queued. -/
inductive Move (cap : ℕ) : Lane α → Lane α → Prop
  | push (x : α) (items : List α) (w : Worker α) (log : List (Mark α)) :
    Move cap ⟨items, w, log⟩ ⟨items ++ [x], w.hired, log ++ [.queued x]⟩
  | overflow (x y : α) (items rest : List α) (w : Worker α) (log : List (Mark α)) (h : items ++ [x] = y :: rest)
    (hcap : cap < (items ++ [x]).length) :
    Move cap ⟨items, w, log⟩ ⟨rest, w.hired, log ++ [.queued x, .dropped y]⟩
  | skip (x : α) (items : List α) (log : List (Mark α)) :
    Move cap ⟨x :: items, .ready, log⟩ ⟨items, .ready, log ++ [.skipped x]⟩
  | take (x : α) (items : List α) (log : List (Mark α)) :
    Move cap ⟨x :: items, .ready, log⟩ ⟨items, .busy x 1, log ++ [.attempt x 0]⟩
  | again (x : α) (n : ℕ) (items : List α) (log : List (Mark α)) :
    Move cap ⟨items, .busy x n, log⟩ ⟨items, .busy x (n + 1), log ++ [.attempt x n]⟩
  | finish (x : α) (n : ℕ) (items : List α) (log : List (Mark α)) :
    Move cap ⟨items, .busy x n, log⟩ ⟨items, .ready, log ++ [.finish x]⟩
  | stop (log : List (Mark α)) : Move cap ⟨[], .ready, log⟩ ⟨[], .gone, log⟩

section

variable [DecidableEq α]

/-- A lane as its log tells it: what was queued is what left and then what is there, in one order; one thing is tried
at a time; nothing waits without a worker; and nothing is dropped but where more than `cap` things were queued. -/
structure Sound (cap : ℕ) (l : Lane α) : Prop where
  fifo : queued l.log = left l.log ++ l.items
  single : Flights.read none (flights l.log) = some l.worker.trying
  tried : ∀ x n, l.worker = .busy x n → 0 < n
  manned : l.items ≠ [] → l.worker ≠ .gone
  dropped : ∀ pre x post, l.log = pre ++ .dropped x :: post → (left pre).length + cap < (queued pre).length

theorem sound_empty (cap : ℕ) : (empty : Lane α).Sound cap where
  fifo := rfl
  single := rfl
  tried x n h := by simp [empty] at h
  manned h := absurd rfl h
  dropped pre x post h := by simp [empty] at h

/-- An element of a log that grew was there before, or is one of the new. -/
theorem split_append {β : Type*} {log new pre post : List β} {d : β} (h : log ++ new = pre ++ d :: post) :
    (∃ post', log = pre ++ d :: post') ∨ ∃ pre', pre = log ++ pre' ∧ new = pre' ++ d :: post := by
  rw [List.append_eq_append_iff] at h
  obtain ⟨mid, rfl, hnew⟩ | ⟨mid, rfl, hpost⟩ := h
  · exact Or.inr ⟨mid, rfl, hnew⟩
  · cases mid with
    | nil => exact Or.inr ⟨[], by simp, hpost.symm⟩
    | cons e mid =>
      obtain ⟨rfl, -⟩ := List.cons.inj hpost
      exact Or.inl ⟨mid, rfl⟩

private theorem split_snoc {β : Type*} {log pre post : List β} {m d : β} (h : log ++ [m] = pre ++ d :: post) :
    (pre = log ∧ m = d) ∨ ∃ post', log = pre ++ d :: post' := by
  obtain hold | ⟨pre', rfl, hnew⟩ := split_append h
  · exact Or.inr hold
  · cases pre' with
    | nil => exact Or.inl ⟨by simp, (List.cons.inj hnew).1⟩
    | cons e pre' => simp at hnew

variable {cap : ℕ} {l l' : Lane α}

/-- A lane whose log grows by a mark that is no drop. -/
private theorem Sound.dropped_snoc (h : l.Sound cap) {m : Mark α} (hm : ∀ x, m ≠ .dropped x) :
    ∀ pre x post, l.log ++ [m] = pre ++ .dropped x :: post → (left pre).length + cap < (queued pre).length := by
  intro pre x post e
  obtain ⟨-, hd⟩ | ⟨post', hlog⟩ := split_snoc e
  · exact absurd hd (hm x)
  · exact h.dropped pre x post' hlog

private theorem Sound.move (h : l.Sound cap) (hm : Move cap l l') : l'.Sound cap := by
  cases hm with
  | push x items w log =>
    have hfifo : queued log = left log ++ items := h.fifo
    refine ⟨?_, ?_, fun z n hw => h.tried z n (Worker.hired_eq_busy.1 hw), fun _ => w.hired_ne_gone,
      h.dropped_snoc (by simp)⟩
    · rw [queued_snoc, left_snoc, hfifo]
      simp [Mark.queued?, Mark.left?]
    · rw [flights_snoc, w.trying_hired]
      exact (congrArg _ (List.append_nil _)).trans h.single
  | overflow x y items rest w log hitems hcap =>
    have hfifo : queued log = left log ++ items := h.fifo
    have hqueued : queued (log ++ [.queued x]) = left (log ++ [.queued x]) ++ (items ++ [x]) := by
      rw [queued_snoc, left_snoc, hfifo]
      simp [Mark.queued?, Mark.left?]
    have hlog : log ++ [Mark.queued x, .dropped y] = (log ++ [.queued x]) ++ [.dropped y] := by simp
    refine ⟨?_, ?_, fun z n hw => h.tried z n (Worker.hired_eq_busy.1 hw), fun _ => w.hired_ne_gone,
      fun pre z post e => ?_⟩
    · rw [hlog, queued_snoc, left_snoc, hqueued, hitems]
      simp [Mark.queued?, Mark.left?]
    · rw [hlog, flights_snoc, flights_snoc, w.trying_hired]
      simpa [Mark.flight?] using h.single
    · rw [hlog] at e
      obtain ⟨rfl, -⟩ | ⟨post', e'⟩ := split_snoc e
      · have hlen := congrArg List.length hqueued
        rw [List.length_append] at hlen
        omega
      · exact h.dropped_snoc (by simp) pre z post' e'
  | skip x items log =>
    have hfifo : queued log = left log ++ x :: items := h.fifo
    refine ⟨?_, ?_, by simp, by simp, h.dropped_snoc (by simp)⟩
    · rw [queued_snoc, left_snoc, hfifo]
      simp [Mark.queued?, Mark.left?]
    · rw [flights_snoc]
      exact (congrArg _ (List.append_nil _)).trans h.single
  | take x items log =>
    have hfifo : queued log = left log ++ x :: items := h.fifo
    have hsingle : Flights.read none (flights log) = some none := h.single
    refine ⟨?_, ?_, by simp, by simp, h.dropped_snoc (by simp)⟩
    · rw [queued_snoc, left_snoc, hfifo]
      simp [Mark.queued?, Mark.left?]
    · rw [flights_snoc, show (Mark.attempt x 0).flight?.toList = [.attempt x 0] from rfl, Flights.read_snoc, hsingle]
      rfl
  | again x n items log =>
    have hfifo : queued log = left log ++ items := h.fifo
    have hsingle : Flights.read none (flights log) = some (some (x, n)) := h.single
    refine ⟨?_, ?_, by simp, by simp, h.dropped_snoc (by simp)⟩
    · rw [queued_snoc, left_snoc, hfifo]
      simp [Mark.queued?, Mark.left?, (h.tried x n rfl).ne']
    · rw [flights_snoc, show (Mark.attempt x n).flight?.toList = [.attempt x n] from rfl, Flights.read_snoc, hsingle]
      exact if_pos rfl
  | finish x n items log =>
    have hfifo : queued log = left log ++ items := h.fifo
    have hsingle : Flights.read none (flights log) = some (some (x, n)) := h.single
    refine ⟨?_, ?_, by simp, by simp, h.dropped_snoc (by simp)⟩
    · rw [queued_snoc, left_snoc, hfifo]
      simp [Mark.queued?, Mark.left?]
    · rw [flights_snoc, show (Mark.finish x).flight?.toList = [.finish x] from rfl, Flights.read_snoc, hsingle]
      exact if_pos rfl
  | stop log => exact ⟨h.fifo, h.single, by simp, fun hne => absurd rfl hne, h.dropped⟩

theorem Sound.moves (h : l.Sound cap) (hm : Relation.ReflTransGen (Move cap) l l') : l'.Sound cap := by
  induction hm with
  | refl => exact h
  | tail _ hlast ih => exact ih.move hlast

/-- The flights of a lane are of the things queued, in their order. -/
theorem Sound.spells (h : l.Sound cap) : ∃ past inside, Flights.Spells (flights l.log) past inside ∧
    ((past ++ inside.toList).map Flights.Flight.item).Sublist (queued l.log) := by
  obtain ⟨past, inside, hspells, -⟩ := Flights.read_eq_some h.single
  refine ⟨past, inside, hspells, ?_⟩
  rw [← hspells.firsts, h.fifo]
  exact (firsts_sublist l.log).trans (List.sublist_append_left _ _)

end

end Lane
