import Servitals.JsString
import Servitals.Lib.Backoff

/-!
# The agent's pushes

`push` and `push_held` of `agent/lib/api.sh`, `tick` and the main loop of `agent/collect.sh`, and `wait_loop`.  A refusal
that someone has to mend closes a hold: its end is kept in a file of the state directory, beside the back-off that doubles
with each such refusal, and both outlive the agent.  A push that nobody answered is tried again sooner than the interval.

A tick is told what it meets: the answers of its requests and what `date +%s` says where it is read.  `log` is a history
variable.  A file of the state directory holds what the agent wrote there, and `none` is a file that is not there or holds
no number.
-/

namespace Servitals

/-- `API_STATUS`: curl's `%{http_code}`, 000 when there was no reply, or a reply whose signature is not the hub's. -/
inductive ApiStatus
  | code (n : ℕ)
  | bad_reply_signature
  deriving DecidableEq

/-- What a request leaves: its status, and `.error` of its reply. -/
structure ApiAnswer where
  status : ApiStatus
  error : JsString
  deriving DecidableEq

namespace ApiAnswer

/-- `2??` -/
def stored : ApiAnswer → Bool
  | ⟨.code n, _⟩ => decide (200 ≤ n) && decide (n < 300)
  | _ => false

/-- `^(000|5[0-9][0-9])$` -/
def unanswered : ApiAnswer → Bool
  | ⟨.code n, _⟩ => n == 0 || decide (500 ≤ n) && decide (n < 600)
  | _ => false

/-- `401:unknown_node|426:*` -/
def stopped (a : ApiAnswer) : Bool :=
  a.status == .code 401 && a.error == js "unknown_node" || a.status == .code 426

/-- `401:bad_signature|401:clock_skew|422:*|bad_reply_signature:*` -/
def mendable (a : ApiAnswer) : Bool :=
  a.status == .code 401 && (a.error == js "bad_signature" || a.error == js "clock_skew") ||
    a.status == .code 422 || a.status == .bad_reply_signature

private theorem not_stored_of_stopped {a : ApiAnswer} (h : a.stopped = true) : a.stored = false := by
  obtain ⟨status, error⟩ := a
  cases status with
  | code n =>
    simp only [stopped, Bool.or_eq_true, Bool.and_eq_true, beq_iff_eq, ApiStatus.code.injEq] at h
    simp only [stored, Bool.and_eq_false_imp, decide_eq_true_eq, decide_eq_false_iff_not]
    omega
  | bad_reply_signature => rfl

private theorem not_stored_of_mendable {a : ApiAnswer} (h : a.mendable = true) : a.stored = false := by
  obtain ⟨status, error⟩ := a
  cases status with
  | code n =>
    simp only [mendable, Bool.or_eq_true, Bool.and_eq_true, beq_iff_eq, ApiStatus.code.injEq, reduceCtorEq,
      or_false] at h
    simp only [stored, Bool.and_eq_false_imp, decide_eq_true_eq, decide_eq_false_iff_not]
    omega
  | bad_reply_signature => rfl

private theorem not_mendable_of_stopped {a : ApiAnswer} (h : a.stopped = true) : a.mendable = false := by
  obtain ⟨status, error⟩ := a
  simp only [stopped, Bool.or_eq_true, Bool.and_eq_true, beq_iff_eq] at h
  rcases h with ⟨rfl, rfl⟩ | rfl
  · decide
  · simp [mendable]

/-- An answer that nobody gave closes no hold and ends none. -/
private theorem not_hold_of_unanswered {a : ApiAnswer} (h : a.unanswered = true) :
    a.stored = false ∧ a.stopped = false ∧ a.mendable = false := by
  obtain ⟨status, error⟩ := a
  cases status with
  | code n =>
    simp only [unanswered, Bool.or_eq_true, Bool.and_eq_true, beq_iff_eq, decide_eq_true_eq] at h
    simp only [stored, stopped, mendable, Bool.and_eq_false_imp, Bool.or_eq_false_iff, beq_eq_false_iff_ne,
      decide_eq_true_eq, decide_eq_false_iff_not, beq_iff_eq, ne_eq, ApiStatus.code.injEq, reduceCtorEq,
      not_false_eq_true, and_true]
    omega
  | bad_reply_signature => simp [unanswered] at h

end ApiAnswer

/-- `INTERVAL`, as the start of `collect.sh` checks it. -/
structure Interval where
  seconds : ℕ
  least : 5 ≤ seconds
  most : seconds ≤ 3600

/-- What one tick meets.  The second answer is there for a push that is sent again; `small` says whether `jq` could drop
the optional lists. -/
structure Tick where
  collected : Bool
  heldAt : ℕ
  first : ApiAnswer
  small : Bool
  second : ApiAnswer
  pushedAt : ℕ
  holdAt : ℕ
  loopAt : ℕ

/-- A push of the agent: when it was decided on, its requests, the last of their answers, and when a hold begins. -/
structure Push where
  heldAt : ℕ
  requests : ℕ
  answer : ApiAnswer
  holdAt : ℕ
  deriving DecidableEq

inductive LoopEvent
  | pushed (p : Push)
  | skipped
  | restarted
  deriving DecidableEq

/-- The agent's main process over its state directory. -/
structure AgentLoop where
  interval : Interval
  pushHold : Option ℕ
  pushBackoff : Option ℕ
  lastPush : Option (ℕ × ApiAnswer)
  retry : ℕ
  log : List LoopEvent

/-- What happens next: a tick and what the main loop makes of it, or an agent that is started again. -/
inductive LoopStep
  | tick (t : Tick)
  | restart (interval : Interval)

namespace AgentLoop

/-- An agent on its first start. -/
def start (interval : Interval) : AgentLoop where
  interval := interval
  pushHold := none
  pushBackoff := none
  lastPush := none
  retry := 0
  log := []

/-- `push_held` -/
def pushHeld (a : AgentLoop) (now : ℕ) : Bool := a.pushHold.any fun til => decide (now < til)

/-- Is the push sent again, and why: a fresh timestamp, the hub's push limit waited out, or without the optional
lists. -/
def again (t : Tick) : Bool :=
  if t.first.status = .code 401 ∧ t.first.error = js "replay" then true
  else if t.first.status = .code 429 then true
  else if t.first.status = .code 413 then t.small
  else false

/-- The answer that `push` ends with. -/
def lastAnswer (t : Tick) : ApiAnswer := if again t then t.second else t.first

/-- The hold of an answer and the back-off it leaves. -/
def holdOf (backoff : Option ℕ) (a : ApiAnswer) : ℕ × Option ℕ :=
  if a.stopped then (600, backoff)
  else if a.mendable then
    let backoff := min 3600 (backoff.getD 30 * 2)
    (backoff, some backoff)
  else (0, backoff)

/-- `push` -/
def push (a : AgentLoop) (t : Tick) : AgentLoop :=
  let answer := lastAnswer t
  let a := { a with
    lastPush := some (t.pushedAt, answer)
    log := a.log ++ [LoopEvent.pushed ⟨t.heldAt, if again t then 2 else 1, answer, t.holdAt⟩] }
  if answer.stored then { a with pushHold := none, pushBackoff := none }
  else
    let (hold, backoff) := holdOf a.pushBackoff answer
    { a with pushBackoff := backoff, pushHold := if 0 < hold then some (t.holdAt + hold) else a.pushHold }

/-- Does the tick push? -/
def pushes (a : AgentLoop) (t : Tick) : Bool := t.collected && !a.pushHeld t.heldAt

/-- `tick`, with `API_STATUS` and the error as it leaves them when it pushed. -/
def tick (a : AgentLoop) (t : Tick) : AgentLoop × Option ApiAnswer :=
  if a.pushes t then (a.push t, some (lastAnswer t)) else ({ a with log := a.log ++ [LoopEvent.skipped] }, none)

/-- The main loop after a tick: how soon it tries again. -/
def afterTick (now : ℕ) : AgentLoop × Option ApiAnswer → AgentLoop
  | (a, none) => { a with retry := 0 }
  | (a, some answer) =>
    if answer.stored then { a with retry := 0 }
    else if answer.unanswered && !a.pushHeld now then
      { a with retry := min a.interval.seconds (if 0 < a.retry then a.retry * 2 else 5) }
    else { a with retry := 0 }

def step (a : AgentLoop) : LoopStep → AgentLoop
  | .tick t => afterTick t.loopAt (a.tick t)
  | .restart interval => { a with interval := interval, retry := 0, log := a.log ++ [LoopEvent.restarted] }

def run (a : AgentLoop) (steps : List LoopStep) : AgentLoop := steps.foldl step a

/-- How many seconds the main loop sleeps at most; a touched trigger ends it sooner. -/
def sleeps (a : AgentLoop) : ℕ := if 0 < a.retry then a.retry else a.interval.seconds

/-! ### The clock -/

end AgentLoop

namespace LoopStep

/-- What `date +%s` said last. -/
def clock (now : ℕ) : LoopStep → ℕ
  | .tick t => t.loopAt
  | .restart _ => now

/-- The step reads a clock that does not go back. -/
def Ordered (now : ℕ) : LoopStep → Prop
  | .tick t => now ≤ t.heldAt ∧ t.heldAt ≤ t.pushedAt ∧ t.pushedAt ≤ t.holdAt ∧ t.holdAt ≤ t.loopAt
  | .restart _ => True

/-- The steps read a clock that does not go back. -/
def Clocked (now : ℕ) : List LoopStep → Prop
  | [] => True
  | s :: steps => s.Ordered now ∧ Clocked (s.clock now) steps

private theorem clocked_append {now : ℕ} {steps later : List LoopStep} :
    Clocked now (steps ++ later) ↔ Clocked now steps ∧ Clocked (steps.foldl clock now) later := by
  induction steps generalizing now with
  | nil => simp [Clocked]
  | cons s steps ih => simp [Clocked, ih, and_assoc]

end LoopStep

/-! ### What the log tells -/

namespace LoopEvent

open Backoff

/-- What an event does to the back-off. -/
def toBackoff : LoopEvent → Outcome
  | .pushed p => if p.answer.stored then .better else if p.answer.mendable then .worse else .same
  | _ => .same

/-- What an event does to the retries. -/
def toRetry : LoopEvent → Outcome
  | .pushed p => if p.answer.unanswered then .worse else .better
  | _ => .better

/-- The hold that a push closes, after the events before it: ten minutes for a node the hub does not know, or another
protocol, and a minute for what someone has to mend, doubled for each time since the hub last stored a push. -/
def hold (earlier : List LoopEvent) (p : Push) : ℕ :=
  if p.answer.stopped then 600
  else if p.answer.mendable then min 3600 (60 * 2 ^ count (earlier.map toBackoff))
  else 0

/-- A push of the log closed a hold until then. -/
def HeldUntil (log : List LoopEvent) (til : ℕ) : Prop :=
  ∃ earlier p later, log = earlier ++ .pushed p :: later ∧ 0 < hold earlier p ∧ til = p.holdAt + hold earlier p

private theorem not_heldUntil_nil (til : ℕ) : ¬ HeldUntil [] til := by
  rintro ⟨earlier, p, later, hlog, -⟩
  simp at hlog

/-- The holds of a log with one more event. -/
private theorem heldUntil_concat {log : List LoopEvent} {e : LoopEvent} {til : ℕ} :
    HeldUntil (log ++ [e]) til ↔
      HeldUntil log til ∨ ∃ p, e = .pushed p ∧ 0 < hold log p ∧ til = p.holdAt + hold log p := by
  constructor
  · rintro ⟨earlier, p, later, hlog, hpos, rfl⟩
    -- the push is the new event or one before it
    rcases List.eq_nil_or_concat later with rfl | ⟨later, e', rfl⟩
    · obtain ⟨rfl, he⟩ := List.append_inj' hlog rfl
      exact .inr ⟨p, by simpa using he, hpos, rfl⟩
    · have hlog' : log ++ [e] = (earlier ++ .pushed p :: later) ++ [e'] := by simpa using hlog
      obtain ⟨rfl, -⟩ := List.append_inj' hlog' rfl
      exact .inl ⟨earlier, p, later, rfl, hpos, rfl⟩
  · rintro (⟨earlier, p, later, rfl, hpos, rfl⟩ | ⟨p, rfl, hpos, rfl⟩)
    · exact ⟨earlier, p, later ++ [e], by simp, hpos, rfl⟩
    · exact ⟨log, p, [], rfl, hpos, rfl⟩

end LoopEvent

namespace AgentLoop

open Backoff LoopEvent

/-- The files and the retry are what the log tells, at a time of the clock. -/
structure Told (a : AgentLoop) (now : ℕ) : Prop where
  backoff : a.pushBackoff = nth 3600 60 (count (a.log.map toBackoff))
  retry : a.retry = (nth a.interval.seconds 5 (count (a.log.map toRetry))).getD 0
  held : ∀ til, HeldUntil a.log til → til ≤ now ∨ a.pushHold = some til
  heldUntil : ∀ til, a.pushHold = some til → HeldUntil a.log til

private theorem told_start (interval : Interval) (now : ℕ) : (start interval).Told now where
  backoff := rfl
  retry := rfl
  held til h := absurd h (not_heldUntil_nil til)
  heldUntil til h := by simp [start] at h

private theorem pushHeld_iff {a : AgentLoop} {now : ℕ} :
    a.pushHeld now = true ↔ ∃ til, a.pushHold = some til ∧ now < til := by
  simp [pushHeld, Option.any_eq_true]

/-- Is the push held?  Exactly while a hold of the log is not over. -/
private theorem Told.pushHeld_iff {a : AgentLoop} {now t : ℕ} (h : a.Told now) (ht : now ≤ t) :
    a.pushHeld t = true ↔ ∃ til, HeldUntil a.log til ∧ t < til := by
  rw [AgentLoop.pushHeld_iff]
  constructor
  · rintro ⟨til, hfile, hlt⟩
    exact ⟨til, h.heldUntil til hfile, hlt⟩
  · rintro ⟨til, hlog, hlt⟩
    have hfile : a.pushHold = some til := (h.held til hlog).resolve_left (by omega)
    exact ⟨til, hfile, hlt⟩

/-- The wait that the back-off file gives, by the one it gave before. -/
private theorem holdOf_eq (backoff : Option ℕ) (a : ApiAnswer) : holdOf backoff a =
    if a.stopped then (600, backoff)
    else if a.mendable then (grow 3600 60 backoff, some (grow 3600 60 backoff))
    else (0, backoff) := by
  have hgrow : min 3600 (backoff.getD 30 * 2) = grow 3600 60 backoff := by
    cases backoff with
    | none => rfl
    | some w => simp only [Option.getD_some, grow]; omega
  simp only [holdOf, hgrow]

/-- The hold of an answer is what the log tells. -/
private theorem Told.holdOf {a : AgentLoop} {now : ℕ} (h : a.Told now) (p : Push) :
    (AgentLoop.holdOf a.pushBackoff p.answer).1 = hold a.log p := by
  rw [holdOf_eq, h.backoff, grow_nth]
  by_cases hstop : p.answer.stopped = true
  · simp [hold, hstop]
  · by_cases hmend : p.answer.mendable = true
    · simp [hold, hstop, hmend]
    · simp [hold, hstop, hmend]

/-- The push of a tick, as the log has it. -/
def pushOf (t : Tick) : Push := ⟨t.heldAt, if again t then 2 else 1, lastAnswer t, t.holdAt⟩

private theorem push_log (a : AgentLoop) (t : Tick) : (a.push t).log = a.log ++ [LoopEvent.pushed (pushOf t)] := by
  simp only [push, pushOf]
  split <;> rfl

@[simp]
theorem push_retry (a : AgentLoop) (t : Tick) : (a.push t).retry = a.retry := by
  simp only [push]
  split <;> rfl

@[simp]
theorem push_interval (a : AgentLoop) (t : Tick) : (a.push t).interval = a.interval := by
  simp only [push]
  split <;> rfl

/-- A push is one more step of the back-off. -/
private theorem push_backoff (a : AgentLoop) (t : Tick) :
    (a.push t).pushBackoff = wait 3600 60 a.pushBackoff (LoopEvent.pushed (pushOf t)).toBackoff := by
  by_cases hst : (lastAnswer t).stored = true
  · simp [push, hst, toBackoff, pushOf, wait]
  · by_cases hstop : (lastAnswer t).stopped = true
    · have hmend : (lastAnswer t).mendable = false := ApiAnswer.not_mendable_of_stopped hstop
      simp [push, hst, holdOf_eq, hstop, hmend, toBackoff, pushOf, wait]
    · by_cases hmend : (lastAnswer t).mendable = true
      · simp [push, hst, holdOf_eq, hstop, hmend, toBackoff, pushOf, wait]
      · simp [push, hst, holdOf_eq, hstop, hmend, toBackoff, pushOf, wait]

/-- The files after a push, told by the log. -/
structure Filed (a : AgentLoop) (now : ℕ) : Prop where
  backoff : a.pushBackoff = nth 3600 60 (count (a.log.map toBackoff))
  held : ∀ til, HeldUntil a.log til → til ≤ now ∨ a.pushHold = some til
  heldUntil : ∀ til, a.pushHold = some til → HeldUntil a.log til

private theorem Told.filed_push {a : AgentLoop} {now : ℕ} (h : a.Told now) {t : Tick} (ht : now ≤ t.heldAt)
    (hpush : a.pushes t = true) : (a.push t).Filed t.heldAt := by
  have hfree : a.pushHeld t.heldAt = false := by
    simp only [pushes, Bool.and_eq_true, Bool.not_eq_true'] at hpush
    exact hpush.2
  -- no hold before this push lasts past its beginning
  have hover : ∀ til, HeldUntil a.log til → til ≤ t.heldAt := by
    intro til htil
    by_contra hlt
    rw [(h.pushHeld_iff ht).2 ⟨til, htil, by omega⟩] at hfree
    cases hfree
  have hback : (a.push t).pushBackoff = nth 3600 60 (count ((a.push t).log.map toBackoff)) := by
    rw [push_backoff, h.backoff, wait_nth, push_log, List.map_append, List.map_singleton, count_concat]
  by_cases hst : (lastAnswer t).stored = true
  · have hno : hold a.log (pushOf t) = 0 := by
      have hstop : (lastAnswer t).stopped = false := by
        by_contra hstop
        rw [ApiAnswer.not_stored_of_stopped (Bool.eq_true_of_not_eq_false hstop)] at hst
        cases hst
      have hmend : (lastAnswer t).mendable = false := by
        by_contra hmend
        rw [ApiAnswer.not_stored_of_mendable (Bool.eq_true_of_not_eq_false hmend)] at hst
        cases hst
      simp [hold, pushOf, hstop, hmend]
    refine ⟨hback, ?_, ?_⟩
    · intro til htil
      rw [push_log, heldUntil_concat] at htil
      rcases htil with htil | ⟨p, hp, hpos, -⟩
      · exact .inl (hover til htil)
      · obtain rfl : pushOf t = p := by simpa using hp
        omega
    · intro til htil
      simp [push, hst] at htil
  · have hst : (lastAnswer t).stored = false := by simpa using hst
    have hhold : (a.push t).pushHold =
        if 0 < hold a.log (pushOf t) then some (t.holdAt + hold a.log (pushOf t)) else a.pushHold := by
      rw [← h.holdOf (pushOf t)]
      simp only [push, hst]
      rfl
    refine ⟨hback, ?_, ?_⟩
    · intro til htil
      rw [push_log, heldUntil_concat] at htil
      rcases htil with htil | ⟨p, hp, hpos, rfl⟩
      · exact .inl (hover til htil)
      · obtain rfl : pushOf t = p := by simpa using hp
        exact .inr (by rw [hhold, if_pos hpos]; rfl)
    · intro til htil
      rw [push_log, heldUntil_concat]
      rw [hhold] at htil
      split at htil
      · rename_i hpos
        exact .inr ⟨pushOf t, rfl, hpos, (Option.some.inj htil).symm⟩
      · exact .inl (h.heldUntil til htil)

/-- A hold that is over at one time is over later. -/
theorem Filed.mono {a : AgentLoop} {now later : ℕ} (h : a.Filed now) (hle : now ≤ later) : a.Filed later where
  backoff := h.backoff
  held til htil := (h.held til htil).imp (fun hover => hover.trans hle) id
  heldUntil := h.heldUntil

/-- The retry after a push, told by the log: the main loop's second look at the hold changes nothing. -/
private theorem Told.afterTick_push {a : AgentLoop} {now : ℕ} (h : a.Told now) {t : Tick}
    (ht : LoopStep.Ordered now (.tick t))
    (hpush : a.pushes t = true) : (afterTick t.loopAt (a.push t, some (lastAnswer t))).Told t.loopAt := by
  obtain ⟨hheld, hpushed, hhold, hloop⟩ := ht
  have hfiled := (h.filed_push hheld hpush).mono (show t.heldAt ≤ t.loopAt by omega)
  by_cases hun : (lastAnswer t).unanswered = true
  · obtain ⟨hst, hstop, hmend⟩ := ApiAnswer.not_hold_of_unanswered hun
    -- nobody answered, so this push closed no hold, and those before it were over when it began
    have hfree : (a.push t).pushHeld t.loopAt = false := by
      have hsame : (a.push t).pushHold = a.pushHold := by
        simp [push, hst, AgentLoop.holdOf, hstop, hmend]
      by_contra hcon
      obtain ⟨til, hfile, hlt⟩ := AgentLoop.pushHeld_iff.1 (Bool.eq_true_of_not_eq_false hcon)
      rw [hsame] at hfile
      have hover : a.pushHeld t.heldAt = true := AgentLoop.pushHeld_iff.2 ⟨til, hfile, by omega⟩
      simp [pushes, hover] at hpush
    simp only [afterTick, hst, hun, hfree, push_retry, push_interval, Bool.false_eq_true, if_false, Bool.not_false,
      Bool.and_self, if_true]
    refine ⟨hfiled.backoff, ?_, hfiled.held, hfiled.heldUntil⟩
    have hgrow : min a.interval.seconds (if 0 < a.retry then a.retry * 2 else 5) =
        min a.interval.seconds (5 * 2 ^ count (a.log.map toRetry)) := by
      have hmin : 5 ≤ a.interval.seconds := a.interval.least
      cases hn : count (a.log.map toRetry) with
      | zero =>
        have hretry : a.retry = 0 := by rw [h.retry, hn]; rfl
        simp [hretry]
      | succ n =>
        have hretry : a.retry = min a.interval.seconds (5 * 2 ^ n) := by rw [h.retry, hn]; rfl
        have hpos : 0 < 2 ^ n := Nat.two_pow_pos n
        have hpow : 5 * 2 ^ (n + 1) = 2 * (5 * 2 ^ n) := by ring
        rw [hpow, if_pos (by omega)]
        omega
    rw [push_log]
    simpa [toRetry, pushOf, hun, Outcome.tally] using hgrow
  · have hun : (lastAnswer t).unanswered = false := by simpa using hun
    have hzero : afterTick t.loopAt (a.push t, some (lastAnswer t)) = { a.push t with retry := 0 } := by
      simp only [afterTick, hun]
      simp
    rw [hzero]
    refine ⟨hfiled.backoff, ?_, hfiled.held, hfiled.heldUntil⟩
    rw [push_log]
    simp [toRetry, pushOf, hun, Outcome.tally]

/-- An event that pushes nothing, and a retry that is over. -/
theorem Told.skip {a : AgentLoop} {now later : ℕ} (h : a.Told now) (hle : now ≤ later) {e : LoopEvent}
    (he : ∀ p, e ≠ .pushed p) (interval : Interval) :
    Told { a with log := a.log ++ [e], retry := 0, interval := interval } later := by
  have hsame : e.toBackoff = .same ∧ e.toRetry = .better := by
    cases e with
    | pushed p => exact absurd rfl (he p)
    | skipped => exact ⟨rfl, rfl⟩
    | restarted => exact ⟨rfl, rfl⟩
  refine ⟨?_, ?_, ?_, ?_⟩
  · simpa [hsame.1, Outcome.tally] using h.backoff
  · simp [hsame.2, Outcome.tally]
  · intro til htil
    rcases heldUntil_concat.1 htil with htil | ⟨p, hp, -⟩
    · exact (h.held til htil).imp (fun hover => hover.trans hle) id
    · exact absurd hp (he p)
  · intro til htil
    exact heldUntil_concat.2 (.inl (h.heldUntil til htil))

/-- What the log tells is kept by each step. -/
theorem Told.step {a : AgentLoop} {now : ℕ} (h : a.Told now) {s : LoopStep} (hs : s.Ordered now) :
    (a.step s).Told (s.clock now) := by
  cases s with
  | tick t =>
    by_cases hpush : a.pushes t = true
    · simp only [AgentLoop.step, tick, hpush, if_true]
      exact h.afterTick_push hs hpush
    · simp only [AgentLoop.step, tick, hpush]
      obtain ⟨hheld, hpushed, hhold, hloop⟩ := hs
      exact h.skip (show now ≤ t.loopAt by omega) (by simp) a.interval
  | restart interval => exact h.skip le_rfl (by simp) interval

/-- What the log tells is kept by every run whose clock does not go back. -/
theorem Told.run {a : AgentLoop} {now : ℕ} (h : a.Told now) {steps : List LoopStep} (hs : LoopStep.Clocked now steps) :
    (a.run steps).Told (steps.foldl LoopStep.clock now) := by
  induction steps generalizing a now with
  | nil => exact h
  | cons s steps ih => exact ih (h.step hs.1) hs.2

/-- Each push sends one request or two. -/
theorem requests_le (a : AgentLoop) (steps : List LoopStep) (h : ∀ p, .pushed p ∈ a.log → p.requests ≤ 2) :
    ∀ p, .pushed p ∈ (a.run steps).log → p.requests ≤ 2 := by
  induction steps generalizing a with
  | nil => exact h
  | cons s steps ih =>
    apply ih
    intro p hp
    cases s with
    | tick t =>
      have hlog : (a.step (.tick t)).log = (a.tick t).1.log := by
        simp only [step, afterTick]
        split
        · simp_all
        · split
          · simp_all
          · split <;> simp_all
      rw [hlog, tick] at hp
      split at hp
      · rw [push_log, List.mem_append, List.mem_singleton] at hp
        rcases hp with hp | hp
        · exact h p hp
        · obtain rfl : p = pushOf t := by simpa using hp
          simp only [pushOf]
          split <;> omega
      · exact h p (by simpa using hp)
    | restart interval => exact h p (by simpa [step] using hp)

/-- A tick that could collect pushes exactly when the holds of all earlier pushes are over, whoever restarted the agent
in between. -/
theorem pushes_iff_of_clocked (interval : Interval) (steps : List LoopStep) (t : Tick)
    (h : LoopStep.Clocked 0 (steps ++ [.tick t])) :
    ((start interval).run steps).pushes t = true ↔
      t.collected = true ∧ ∀ til, HeldUntil ((start interval).run steps).log til → til ≤ t.heldAt := by
  obtain ⟨hsteps, ⟨hheld, -⟩, -⟩ := LoopStep.clocked_append.1 h
  have htold := (told_start interval 0).run hsteps
  have hiff := htold.pushHeld_iff hheld
  simp only [pushes, Bool.and_eq_true, Bool.not_eq_true', ← Bool.not_eq_true, hiff]
  simp

/-- A tick within one second, every request of which has the same answer. -/
def tickAt (now : ℕ) (answer : ApiAnswer) : Tick := ⟨true, now, answer, true, answer, now, now, now⟩

def minute : Interval := ⟨60, by decide, by decide⟩

/-- A node with a wrong secret, whose agent is started again while it holds. -/
theorem pushes_iff_after_restart :
    ((start minute).run [.tick (tickAt 1000 ⟨.code 401, js "bad_signature"⟩), .restart minute]).pushes
        (tickAt 1060 ⟨.code 200, []⟩) = true ↔
      (tickAt 1060 ⟨.code 200, []⟩).collected = true ∧
        ∀ til, HeldUntil ((start minute).run
          [.tick (tickAt 1000 ⟨.code 401, js "bad_signature"⟩), .restart minute]).log til → til ≤ 1060 :=
  pushes_iff_of_clocked minute _ (tickAt 1060 ⟨.code 200, []⟩) (by
    simp [LoopStep.Clocked, LoopStep.Ordered, LoopStep.clock, tickAt])

example :
    let a := (start minute).run [.tick (tickAt 1000 ⟨.code 401, js "bad_signature"⟩), .restart minute]
    a.pushes (tickAt 1059 ⟨.code 200, []⟩) = false ∧ a.pushes (tickAt 1060 ⟨.code 200, []⟩) = true := by decide

/-- How long the main loop sleeps: the interval, or after `n + 1` pushes in a row that nobody answered five seconds
doubled `n` times, and never longer than the interval. -/
theorem sleeps_of_clocked (interval : Interval) (steps : List LoopStep) (h : LoopStep.Clocked 0 steps) :
    ((start interval).run steps).sleeps =
      (nth ((start interval).run steps).interval.seconds 5 (count (((start interval).run steps).log.map toRetry))).getD
        ((start interval).run steps).interval.seconds := by
  have htold := (told_start interval 0).run h
  have hmin : 5 ≤ ((start interval).run steps).interval.seconds := ((start interval).run steps).interval.least
  have hretry := htold.retry
  cases hn : count (((start interval).run steps).log.map toRetry) with
  | zero =>
    rw [hn] at hretry
    rw [sleeps, hretry]
    rfl
  | succ n =>
    rw [hn, nth_succ, Option.getD_some] at hretry
    have hpos : 0 < 2 ^ n := Nat.two_pow_pos n
    rw [sleeps, if_pos (by omega), hretry]
    rfl

/-- Three pushes that nobody answered. -/
def unansweredTicks : List LoopStep :=
  [.tick (tickAt 1 ⟨.code 0, []⟩), .tick (tickAt 6 ⟨.code 502, []⟩), .tick (tickAt 16 ⟨.code 0, []⟩)]

theorem sleeps_unanswered :
    ((start minute).run unansweredTicks).sleeps =
      (nth ((start minute).run unansweredTicks).interval.seconds 5
        (count (((start minute).run unansweredTicks).log.map toRetry))).getD
        ((start minute).run unansweredTicks).interval.seconds :=
  sleeps_of_clocked minute unansweredTicks (by
    simp [unansweredTicks, LoopStep.Clocked, LoopStep.Ordered, LoopStep.clock, tickAt])

example : ((start minute).run unansweredTicks).sleeps = 20 := by decide

end AgentLoop

/-! ### The long poll -/

/-- What a `wait` request comes to; `sample` says whether its reply holds `"sample":true`. -/
structure WaitAnswer where
  answer : ApiAnswer
  sample : Bool

/-- The wait loop: its back-off, and how often it has touched the trigger. -/
structure WaitLoop where
  backoff : ℕ
  touched : ℕ

namespace WaitLoop

open Backoff

def start : WaitLoop := ⟨5, 0⟩

/-- One turn of the loop, and how long it sleeps before the next. -/
def turn (interval : Interval) (l : WaitLoop) (w : WaitAnswer) : WaitLoop × ℕ :=
  if w.answer.stored then (⟨5, if w.answer.status = .code 200 ∧ w.sample then l.touched + 1 else l.touched⟩, 0)
  else if w.answer.stopped then (l, 600)
  else
    let backoff := min interval.seconds (l.backoff * 2)
    ({ l with backoff := if backoff < 5 then 5 else backoff }, l.backoff)

def run (interval : Interval) (l : WaitLoop) (ws : List WaitAnswer) : WaitLoop :=
  ws.foldl (fun l w => (l.turn interval w).1) l

/-- What an answer does to the back-off. -/
def toBackoff (w : WaitAnswer) : Outcome :=
  if w.answer.stored then .better else if w.answer.stopped then .same else .worse

/-- The back-off is what the answers tell. -/
private theorem backoff_run (interval : Interval) (ws : List WaitAnswer) :
    (run interval start ws).backoff = min interval.seconds (5 * 2 ^ count (ws.map toBackoff)) := by
  have hmin : 5 ≤ interval.seconds := interval.least
  induction ws using List.reverseRecOn with
  | nil =>
    simp only [run, List.foldl_nil, List.map_nil, count_nil, pow_zero]
    exact (Nat.min_eq_right hmin).symm
  | append_singleton ws w ih =>
    have hrun : run interval start (ws ++ [w]) = ((run interval start ws).turn interval w).1 := by
      simp [run]
    rw [hrun, List.map_append, List.map_cons, List.map_nil, count_concat, turn, toBackoff]
    by_cases hst : w.answer.stored = true
    · simp only [hst, if_true, Outcome.tally, pow_zero]
      exact (Nat.min_eq_right hmin).symm
    · by_cases hstop : w.answer.stopped = true
      · simp only [hst, hstop, if_true, Outcome.tally]
        exact ih
      · simp only [hst, hstop, Outcome.tally, Bool.false_eq_true, if_false]
        have hpow : 5 * 2 ^ (count (ws.map toBackoff) + 1) = 2 * (5 * 2 ^ count (ws.map toBackoff)) := by ring
        have hpos : 0 < 2 ^ count (ws.map toBackoff) := Nat.two_pow_pos _
        rw [ih, hpow, if_neg (by omega)]
        omega

/-- How long the loop sleeps after a failure: ten minutes when it is told to stop, else five seconds, doubled for each
failure since the hub last answered and never longer than the interval. -/
theorem sleeps_run (interval : Interval) (ws : List WaitAnswer) (w : WaitAnswer) (hw : w.answer.stored = false) :
    ((run interval start ws).turn interval w).2 =
      if w.answer.stopped then 600 else min interval.seconds (5 * 2 ^ count (ws.map toBackoff)) := by
  simp only [turn, hw, Bool.false_eq_true, if_false]
  split
  · rfl
  · exact backoff_run interval ws

end WaitLoop

end Servitals
