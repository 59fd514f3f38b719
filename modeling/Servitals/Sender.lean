import Servitals.Notify
import Servitals.Lib.Lane

/-!
# The senders of the notifier

`deliver` and `send` of `hub/lib/notify.js`.  Each channel has a queue and at most one sender, which runs across awaits:
it takes the head of the queue, sends it, waits and tries again after a failure that may pass, and goes on to the next.
Events, ticks and new settings come in between.  A channel's queue and sender are a lane (`laneOf`), and every step of
the notifier moves each lane as a lane may move (`moves_step`).

The page's test message is sent beside the queues and changes nothing here.  `log` is a history variable.
-/

namespace Servitals

open Relation

def MAX_QUEUE : ℕ := 100

def RETRIES : List ℕ := [2000, 10000, 30000]

/-- A queued message with its transaction id. -/
structure Item where
  txn : JsString
  message : Message
  deriving DecidableEq

/-- The queue of a channel, and its sender while one is running. -/
structure Queue where
  items : List Item
  running : Option ℕ

/-- Where a sender stands: before it looks at the queue, at an await, or at its end. -/
inductive SenderState
  | ready
  | sending (next : Item) (i : ℕ)
  | sleeping (next : Item) (i : ℕ) (ms : ℕ)
  | finished
  deriving DecidableEq

structure Sender where
  channel : JsString
  state : SenderState

inductive SendEvent
  | queued (id : JsString) (item : Item)
  | dropped (id : JsString) (item : Item)
  | skipped (id : JsString) (item : Item)
  | attempt (id : JsString) (item : Item) (i : ℕ)
  | sent (id : JsString) (item : Item)
  | failed (id : JsString) (item : Item) (code : JsString)
  | config (channels : List Channel)

/-- The notifier with its queues and senders. -/
structure Sending where
  notifier : Notifier
  queues : OMap JsString Queue
  senders : List Sender
  drawn : ℕ
  log : List SendEvent

inductive SendResult
  | ok
  | error (code : JsString)

inductive SendStep
  | event (e : Event) (t : ℤ)
  | tick (t : ℤ)
  | setConfig (channels : List Channel) (quiet : Option Quiet) (digestAt : ℕ)
  | resume (k : ℕ)
  | result (k : ℕ) (r : SendResult)
  | wake (k : ℕ)

/-- A failure a second try cannot fix, by `String(e.code)`. -/
def final (code : JsString) : Bool :=
  (js "HTTP_4").isPrefixOf code && code.length == 8 && (code.drop 6).all (unitIn '0' '9') &&
      code != js "HTTP_408" && code != js "HTTP_429" ||
    (js "SMTP_5").isPrefixOf code ||
    [js "ENV_UNSET", js "EBADVALUE", js "EURL", js "ETLSREQUIRED", js "EADDRESS", js "APPRISE_MISSING", js "EPUSH_NONE",
      js "EPUSH_OFF", js "ERR_TLS_CERT", js "DEPTH_ZERO_SELF_SIGNED", js "SELF_SIGNED_CERT", js "UNABLE_TO_VERIFY",
      js "CERT_"].any (·.isPrefixOf code)

example : final (js "HTTP_404") = true ∧ final (js "HTTP_429") = false ∧ final (js "ECONNRESET") = false := by decide

/-- `n.toString(36)` -/
def base36 (n : ℤ) : JsString :=
  (if n < 0 then [0x2d] else []) ++ (Nat.toDigits 36 n.natAbs).flatMap utf16

namespace Sending

/-- Before any message, with the notifier's channels and what it holds. -/
def start (n : Notifier) : Sending where
  notifier := { n with queued := [] }
  queues := OMap.empty
  senders := []
  drawn := 0
  log := []

/-- A queue past its bound drops its head. -/
def shift (id : JsString) : List Item → List Item × List SendEvent
  | [] => ([], [])
  | x :: items => if MAX_QUEUE < (x :: items).length then (items, [.dropped id x]) else (x :: items, [])

/-- One message into one queue; a sender starts where none runs.  `random` gives the draws of `randomBytes`. -/
def enqueue (random : ℕ → JsString) (t : ℤ) (s : Sending) (m : JsString × Message) : Sending :=
  let id := m.1
  let q := (s.queues.get? id).getD ⟨[], none⟩
  let item : Item := ⟨js "sv" ++ base36 t ++ random s.drawn, m.2⟩
  let (items, dropped) := shift id (q.items ++ [item])
  let s := { s with drawn := s.drawn + 1, log := s.log ++ SendEvent.queued id item :: dropped }
  match q.running with
  | some k => { s with queues := s.queues.set id ⟨items, some k⟩ }
  | none => { s with
      queues := s.queues.set id ⟨items, some s.senders.length⟩
      senders := s.senders ++ [({ channel := id, state := .ready } : Sender)] }

/-- A call of the notifier, and its messages into the queues. -/
def call (loc : Locale) (random : ℕ → JsString) (s : Sending) (c : Notifier.Call) : Sending :=
  let n := s.notifier.call loc c
  (n.queued.drop s.notifier.queued.length).foldl (enqueue random c.time) { s with notifier := n }

/-- The loop of a sender over its queue, until it awaits a `send` or finds the queue empty: what it logs, the queue it
leaves and where it stands. -/
def loop (channels : List Channel) (id : JsString) : List Item → List SendEvent × List Item × SenderState
  | [] => ([], [], .finished)
  | next :: items =>
    match channels.find? fun c => c.id = id ∧ c.on with
    | some _ => ([.attempt id next 0], items, .sending next 0)
    | none =>
      let (log, rest) := loop channels id items
      (.skipped id next :: log, rest)

/-- A sender goes on after an await of its own. -/
def goTo (s : Sending) (k : ℕ) (id : JsString) (state : SenderState) (log : List SendEvent) : Sending :=
  { s with senders := s.senders.set k ⟨id, state⟩, log := s.log ++ log }

/-- The sender looks at its queue. -/
def resume (s : Sending) (k : ℕ) (id : JsString) : Sending :=
  let q := (s.queues.get? id).getD ⟨[], none⟩
  let (log, items, state) := loop s.notifier.channels id q.items
  let running := if state = .finished then none else q.running
  { s.goTo k id state log with queues := s.queues.set id ⟨items, running⟩ }

/-- What comes of an attempt. -/
def result (s : Sending) (k : ℕ) (id : JsString) (next : Item) (i : ℕ) : SendResult → Sending
  | .ok => s.goTo k id .ready [.sent id next]
  | .error code =>
    if RETRIES.length ≤ i ∨ final code = true then s.goTo k id .ready [.failed id next code]
    else s.goTo k id (.sleeping next i (RETRIES.getD i 0)) []

/-- One step.  A sender takes only the steps of the state it is in. -/
def step (loc : Locale) (random : ℕ → JsString) (s : Sending) : SendStep → Sending
  | .event e t => s.call loc random (.event e t)
  | .tick t => s.call loc random (.tick t)
  | .setConfig channels quiet digestAt =>
    { s with
      notifier := { s.notifier with channels := channels, quiet := quiet, digestAt := digestAt }
      log := s.log ++ [.config channels] }
  | .resume k =>
    match s.senders[k]? with
    | some ⟨id, .ready⟩ => s.resume k id
    | _ => s
  | .result k r =>
    match s.senders[k]? with
    | some ⟨id, .sending next i⟩ => s.result k id next i r
    | _ => s
  | .wake k =>
    match s.senders[k]? with
    | some ⟨id, .sleeping next i _⟩ => s.goTo k id (.sending next (i + 1)) [.attempt id next (i + 1)]
    | _ => s

/-! ### Lanes -/

end Sending

/-- What an event says of a channel's lane. -/
def SendEvent.mark? (id : JsString) : SendEvent → Option (Lane.Mark Item)
  | queued c x => if c = id then some (.queued x) else none
  | dropped c x => if c = id then some (.dropped x) else none
  | skipped c x => if c = id then some (.skipped x) else none
  | attempt c x i => if c = id then some (.attempt x i) else none
  | sent c x => if c = id then some (.finish x) else none
  | failed c x _ => if c = id then some (.finish x) else none
  | config _ => none

def SenderState.worker : SenderState → Lane.Worker Item
  | ready => .ready
  | sending next i => .busy next (i + 1)
  | sleeping next i _ => .busy next (i + 1)
  | finished => .gone

private theorem SenderState.worker_ne_gone {state : SenderState} (h : state ≠ .finished) : state.worker ≠ .gone := by
  cases state with
  | finished => exact absurd rfl h
  | ready => simp [worker]
  | sending next i => simp [worker]
  | sleeping next i ms => simp [worker]

namespace Sending

/-- The log of a channel's lane. -/
def laneLog (id : JsString) (log : List SendEvent) : List (Lane.Mark Item) := log.filterMap (SendEvent.mark? id)

/-- The channel's running sender. -/
def running (s : Sending) (id : JsString) : Option ℕ := (s.queues.get? id).bind Queue.running

/-- The lane of a channel: its queue, its sender and what the log says of them. -/
def lane (s : Sending) (id : JsString) : Lane Item where
  items := ((s.queues.get? id).map Queue.items).getD []
  worker := ((s.running id).bind fun k => s.senders[k]?).elim .gone fun x => x.state.worker
  log := laneLog id s.log

/-- A channel's running sender is the one of its senders that is not at its end. -/
def Manned (s : Sending) : Prop :=
  ∀ id k, s.running id = some k ↔ ∃ state, s.senders[k]? = some ⟨id, state⟩ ∧ state ≠ .finished

/-- Nothing of other channels changes. -/
structure Apart (id : JsString) (s s' : Sending) : Prop where
  queue : ∀ c, c ≠ id → s'.queues.get? c = s.queues.get? c
  sender : ∀ c, c ≠ id → ∀ (k : ℕ) state, s'.senders[k]? = some ⟨c, state⟩ ↔ s.senders[k]? = some ⟨c, state⟩
  log : ∀ c, c ≠ id → laneLog c s'.log = laneLog c s.log

variable {s s' : Sending} {id : JsString}

theorem Apart.running (h : Apart id s s') {c : JsString} (hc : c ≠ id) : s'.running c = s.running c := by
  rw [Sending.running, Sending.running, h.queue c hc]

private theorem Apart.lane (h : Apart id s s') (hs : s.Manned) {c : JsString} (hc : c ≠ id) : s'.lane c = s.lane c := by
  have hworker : (s'.running c).bind (fun k => s'.senders[k]?) = (s.running c).bind fun k => s.senders[k]? := by
    rw [h.running hc]
    cases hk : s.running c with
    | none => rfl
    | some k =>
      obtain ⟨state, hget, -⟩ := (hs c k).1 hk
      rw [Option.bind_some, Option.bind_some, hget]
      exact (h.sender c hc k state).2 hget
  rw [Sending.lane, Sending.lane, hworker, h.queue c hc, h.log c hc]

/-- What a step of one channel has to show. -/
structure Moves (id : JsString) (s s' : Sending) : Prop where
  apart : Apart id s s'
  manned : ∀ k, s'.running id = some k ↔ ∃ state, s'.senders[k]? = some ⟨id, state⟩ ∧ state ≠ .finished
  moves : ReflTransGen (Lane.Move MAX_QUEUE) (s.lane id) (s'.lane id)

theorem Moves.all (h : Moves id s s') (hs : s.Manned) :
    s'.Manned ∧ ∀ c, ReflTransGen (Lane.Move MAX_QUEUE) (s.lane c) (s'.lane c) := by
  constructor
  · intro c k
    by_cases hc : c = id
    · subst hc
      exact h.manned k
    · rw [h.apart.running hc, hs c k]
      exact exists_congr fun state => and_congr_left' (h.apart.sender c hc k state).symm
  · intro c
    by_cases hc : c = id
    · subst hc
      exact h.moves
    · rw [h.apart.lane hs hc]

/-! ### A sender's step -/

/-- The lane's queue and sender, where the queue is read. -/
private theorem queue_eq (s : Sending) (id : JsString) :
    ((s.queues.get? id).getD ⟨[], none⟩).items = (s.lane id).items ∧
      ((s.queues.get? id).getD ⟨[], none⟩).running = s.running id := by
  rw [lane, running]
  cases s.queues.get? id with
  | none => exact ⟨rfl, rfl⟩
  | some q => exact ⟨rfl, rfl⟩

private theorem lane_of_queue {q : Queue} {k : ℕ} {state : SenderState} (hq : s.queues.get? id = some q)
    (hrunning : q.running = some k) (hk : s.senders[k]? = some ⟨id, state⟩) :
    s.running id = some k ∧ s.lane id = ⟨q.items, state.worker, laneLog id s.log⟩ := by
  have hrun : s.running id = some k := by
    rw [running, hq]
    exact hrunning
  refine ⟨hrun, ?_⟩
  rw [lane, hrun, hq, Option.bind_some, hk]
  rfl

private theorem laneLog_append (id : JsString) (log new : List SendEvent) :
    laneLog id (log ++ new) = laneLog id log ++ laneLog id new :=
  List.filterMap_append

private theorem Manned.lane_of_sender (hs : s.Manned) {k : ℕ} {state : SenderState}
    (hk : s.senders[k]? = some ⟨id, state⟩)
    (hstate : state ≠ .finished) : s.running id = some k ∧ (s.lane id).worker = state.worker := by
  have hrunning := (hs id k).2 ⟨state, hk, hstate⟩
  refine ⟨hrunning, ?_⟩
  rw [Sending.lane, hrunning, Option.bind_some, hk]
  rfl

private theorem laneLog_cons {e : SendEvent} {m : Lane.Mark Item} (h : e.mark? id = some m) (log : List SendEvent) :
    laneLog id (e :: log) = m :: laneLog id log :=
  List.filterMap_cons_some h

private theorem laneLog_cons_none {e : SendEvent} (h : e.mark? id = none) (log : List SendEvent) :
    laneLog id (e :: log) = laneLog id log :=
  List.filterMap_cons_none h

/-- The sender `k` of the channel goes on, and perhaps changes the queue. -/
private theorem moves_of_sender (hs : s.Manned) {k : ℕ} {old state : SenderState} {new : List SendEvent}
    (hk : s.senders[k]? = some ⟨id, old⟩) (hold : old ≠ .finished)
    (hsenders : s'.senders = s.senders.set k ⟨id, state⟩) (hqueues : ∀ c, c ≠ id → s'.queues.get? c = s.queues.get? c)
    (hlog : s'.log = s.log ++ new) (hnew : ∀ c, c ≠ id → laneLog c new = [])
    (hrunning : s'.running id = if state = .finished then none else some k)
    (hmove : ReflTransGen (Lane.Move MAX_QUEUE) ⟨(s.lane id).items, old.worker, laneLog id s.log⟩
      ⟨(s'.lane id).items, state.worker, laneLog id s.log ++ laneLog id new⟩) : Moves id s s' := by
  have hklt : k < s.senders.length := (List.getElem?_eq_some_iff.1 hk).1
  have hself : s'.senders[k]? = some ⟨id, state⟩ := by
    rw [hsenders, List.getElem?_set_self hklt]
  have hother : ∀ j, j ≠ k → s'.senders[j]? = s.senders[j]? := by
    intro j hj
    rw [hsenders, List.getElem?_set_ne hj.symm]
  obtain ⟨hrun, hworker⟩ := hs.lane_of_sender hk hold
  refine ⟨⟨hqueues, ?_, ?_⟩, ?_, ?_⟩
  · intro c hc j st
    by_cases hj : j = k
    · subst hj
      rw [hself, hk]
      simp [hc.symm]
    · rw [hother j hj]
  · intro c hc
    rw [hlog, laneLog_append, hnew c hc, List.append_nil]
  · intro j
    by_cases hj : j = k
    · subst hj
      rw [hrunning, hself]
      by_cases hfin : state = .finished <;> simp [hfin]
    · have hnone : ¬ ∃ st, s.senders[j]? = some ⟨id, st⟩ ∧ st ≠ .finished := by
        rw [← hs id j, hrun, Option.some.injEq]
        exact fun h => hj h.symm
      rw [hrunning, hother j hj]
      by_cases hfin : state = .finished
      · simpa [hfin] using hnone
      · simpa [hfin, Ne.symm hj] using hnone
  · have hlane : s.lane id = ⟨(s.lane id).items, old.worker, laneLog id s.log⟩ := by
      rw [← hworker]
      rfl
    have hlane' : s'.lane id = ⟨(s'.lane id).items, state.worker, laneLog id s.log ++ laneLog id new⟩ := by
      have hw : (s'.lane id).worker = state.worker := by
        rw [Sending.lane, hrunning]
        by_cases hfin : state = .finished
        · simp [hfin, SenderState.worker]
        · simp [hfin, hself]
      rw [← hw, ← laneLog_append, ← hlog]
      rfl
    rw [hlane, hlane']
    exact hmove

private theorem moves_goTo (hs : s.Manned) {k : ℕ} {old state : SenderState} {new : List SendEvent}
    (hk : s.senders[k]? = some ⟨id, old⟩) (hold : old ≠ .finished) (hstate : state ≠ .finished)
    (hnew : ∀ c, c ≠ id → laneLog c new = [])
    (hmove : ∀ items marks, ReflTransGen (Lane.Move MAX_QUEUE) ⟨items, old.worker, marks⟩
      ⟨items, state.worker, marks ++ laneLog id new⟩) : Moves id s (s.goTo k id state new) := by
  refine moves_of_sender hs hk hold rfl (fun _ _ => rfl) rfl hnew ?_ (hmove _ _)
  rw [if_neg hstate]
  exact (hs.lane_of_sender hk hold).1

/-- What comes of an attempt: the message is let go, or tried again later. -/
private theorem moves_result (hs : s.Manned) {k : ℕ} {next : Item} {i : ℕ}
    (hk : s.senders[k]? = some ⟨id, .sending next i⟩)
    (r : SendResult) : Moves id s (s.result k id next i r) := by
  have hfinish : ∀ e : SendEvent, e.mark? id = some (.finish next) → (∀ c, c ≠ id → e.mark? c = none) →
      Moves id s (s.goTo k id .ready [e]) := by
    intro e he hother
    refine moves_goTo hs hk (by simp) (by simp) (fun c hc => laneLog_cons_none (hother c hc) []) fun items marks => ?_
    rw [laneLog_cons he]
    exact .single (.finish next (i + 1) items marks)
  cases r with
  | ok => exact hfinish _ (if_pos rfl) fun c hc => if_neg hc.symm
  | error code =>
    rw [result]
    split
    · exact hfinish _ (if_pos rfl) fun c hc => if_neg hc.symm
    · refine moves_goTo hs hk (by simp) (by simp) (fun _ _ => rfl) fun items marks => ?_
      rw [show laneLog id [] = [] from rfl, List.append_nil]
      exact .refl

private theorem moves_wake (hs : s.Manned) {k : ℕ} {next : Item} {i ms : ℕ}
    (hk : s.senders[k]? = some ⟨id, .sleeping next i ms⟩) :
    Moves id s (s.goTo k id (.sending next (i + 1)) [.attempt id next (i + 1)]) := by
  refine moves_goTo hs hk (by simp) (by simp)
    (fun c hc => laneLog_cons_none (by rw [SendEvent.mark?, if_neg hc.symm]) []) fun items marks => ?_
  have hmark : (SendEvent.attempt id next (i + 1)).mark? id = some (.attempt next (i + 1)) := if_pos rfl
  rw [laneLog_cons hmark]
  exact .single (.again next (i + 1) items marks)

private theorem loop_cons_of_some {channels : List Channel} {cur : Channel}
    (h : channels.find? (fun c => c.id = id ∧ c.on) = some cur) (next : Item) (items : List Item) :
    loop channels id (next :: items) = ([.attempt id next 0], items, .sending next 0) := by
  rw [loop, h]

private theorem loop_cons_of_none {channels : List Channel} (h : channels.find? (fun c => c.id = id ∧ c.on) = none)
    (next : Item) (items : List Item) :
    loop channels id (next :: items) = (.skipped id next :: (loop channels id items).1, (loop channels id items).2) := by
  rw [loop, h]

/-- The loop takes and skips the head of the queue, and leaves nothing when it ends. -/
private theorem moves_loop (channels : List Channel) (items : List Item) (marks : List (Lane.Mark Item)) :
    ReflTransGen (Lane.Move MAX_QUEUE) ⟨items, .ready, marks⟩
      ⟨(loop channels id items).2.1, (loop channels id items).2.2.worker,
        marks ++ laneLog id (loop channels id items).1⟩ := by
  induction items generalizing marks with
  | nil =>
    rw [loop, show laneLog id [] = [] from rfl, List.append_nil]
    exact .single (.stop marks)
  | cons next items ih =>
    cases hcur : channels.find? (fun c => c.id = id ∧ c.on) with
    | some cur =>
      have hmark : (SendEvent.attempt id next 0).mark? id = some (.attempt next 0) := if_pos rfl
      rw [loop_cons_of_some hcur, laneLog_cons hmark]
      exact .single (.take next items marks)
    | none =>
      have hmark : (SendEvent.skipped id next).mark? id = some (.skipped next) := if_pos rfl
      have hrest := ih (marks ++ [.skipped next])
      rw [List.append_assoc] at hrest
      rw [loop_cons_of_none hcur, laneLog_cons hmark]
      exact .head (.skip next items marks) hrest

private theorem laneLog_loop (channels : List Channel) (items : List Item) {c : JsString} (hc : c ≠ id) :
    laneLog c (loop channels id items).1 = [] := by
  induction items with
  | nil => rfl
  | cons next items ih =>
    cases hcur : channels.find? (fun c => c.id = id ∧ c.on) with
    | some cur =>
      rw [loop_cons_of_some hcur]
      exact laneLog_cons_none (by rw [SendEvent.mark?, if_neg hc.symm]) []
    | none =>
      rw [loop_cons_of_none hcur]
      exact (laneLog_cons_none (by rw [SendEvent.mark?, if_neg hc.symm]) _).trans ih

private theorem moves_resume (hs : s.Manned) {k : ℕ} (hk : s.senders[k]? = some ⟨id, .ready⟩) :
    Moves id s (s.resume k id) := by
  obtain ⟨hrun, -⟩ := hs.lane_of_sender hk (by simp)
  obtain ⟨hitems, hrunning⟩ := queue_eq s id
  rw [hrun] at hrunning
  have hloop := @moves_loop id s.notifier.channels (s.lane id).items (laneLog id s.log)
  refine moves_of_sender hs hk (by simp) rfl (fun c hc => OMap.get?_set_of_ne _ hc _) rfl
    (fun c hc => laneLog_loop _ _ hc) ?_ ?_
  · rw [running, resume, hrunning]
    dsimp only
    rw [OMap.get?_set_self]
    rfl
  · rw [hitems]
    have hleft : ((s.resume k id).lane id).items = (loop s.notifier.channels id (s.lane id).items).2.1 := by
      rw [resume, lane]
      dsimp only
      rw [OMap.get?_set_self, hitems]
      rfl
    rw [hleft]
    exact hloop

/-! ### A message into a queue -/

private theorem move_shift (items : List Item) (item : Item) (w : Lane.Worker Item) (marks : List (Lane.Mark Item)) :
    Lane.Move MAX_QUEUE ⟨items, w, marks⟩ ⟨(shift id (items ++ [item])).1, w.hired,
      marks ++ .queued item :: laneLog id (shift id (items ++ [item])).2⟩ := by
  cases hitems : items ++ [item] with
  | nil => simp at hitems
  | cons x rest =>
    rw [shift]
    split
    · rename_i hlen
      have hmark : (SendEvent.dropped id x).mark? id = some (.dropped x) := if_pos rfl
      rw [laneLog_cons hmark]
      exact .overflow item x items rest w marks hitems (hitems ▸ hlen)
    · rw [← hitems]
      exact .push item items w marks

private theorem laneLog_shift (items : List Item) {c : JsString} (hc : c ≠ id) : laneLog c (shift id items).2 = [] := by
  cases items with
  | nil => rfl
  | cons x items =>
    rw [shift]
    split
    · exact laneLog_cons_none (by rw [SendEvent.mark?, if_neg hc.symm]) []
    · rfl

/-- A message comes into the queue, where a sender is running or one starts. -/
private theorem moves_of_queue (hs : s.Manned) {item : Item} {k : ℕ}
    (hlog : s'.log = s.log ++ .queued id item :: (shift id ((s.lane id).items ++ [item])).2)
    (hqueues : ∀ c, c ≠ id → s'.queues.get? c = s.queues.get? c)
    (hqueue : s'.queues.get? id = some ⟨(shift id ((s.lane id).items ++ [item])).1, some k⟩)
    (hsenders : s.running id = some k ∧ s'.senders = s.senders ∨
      s.running id = none ∧ k = s.senders.length ∧ s'.senders = s.senders ++ [⟨id, .ready⟩]) : Moves id s s' := by
  have hother : ∀ c, c ≠ id → laneLog c s'.log = laneLog c s.log := by
    intro c hc
    rw [hlog, laneLog_append, laneLog_cons_none (by rw [SendEvent.mark?, if_neg hc.symm]), laneLog_shift _ hc,
      List.append_nil]
  have hself : laneLog id s'.log =
      laneLog id s.log ++ .queued item :: laneLog id (shift id ((s.lane id).items ++ [item])).2 := by
    have hmark : (SendEvent.queued id item).mark? id = some (.queued item) := if_pos rfl
    rw [hlog, laneLog_append, laneLog_cons hmark]
  have hmove := @move_shift id (s.lane id).items item (s.lane id).worker (laneLog id s.log)
  rw [← hself] at hmove
  obtain ⟨hrun, hsenders⟩ | ⟨hrun, rfl, hsenders⟩ := hsenders
  · obtain ⟨state, hk, hstate⟩ := (hs id k).1 hrun
    obtain ⟨-, hworker⟩ := hs.lane_of_sender hk hstate
    obtain ⟨hrun', hlane'⟩ := lane_of_queue hqueue rfl (hsenders ▸ hk)
    refine ⟨⟨hqueues, fun c _ j st => by rw [hsenders], hother⟩, fun j => ?_, ?_⟩
    · rw [hsenders, ← hs id j, hrun, hrun']
    · rw [Lane.Worker.hired_of_ne_gone (hworker ▸ SenderState.worker_ne_gone hstate)] at hmove
      rw [hlane', ← hworker]
      exact .single hmove
  · have hold : ∀ j, j ≠ s.senders.length → s'.senders[j]? = s.senders[j]? := by
      intro j hj
      rw [hsenders]
      rcases lt_or_gt_of_ne hj with hlt | hgt
      · exact List.getElem?_append_left hlt
      · rw [List.getElem?_eq_none hgt.le, List.getElem?_eq_none (by simpa using hgt)]
    have hlast : s'.senders[s.senders.length]? = some ⟨id, .ready⟩ := by
      rw [hsenders]
      exact List.getElem?_concat_length
    have hnone : s.senders[s.senders.length]? = none := List.getElem?_eq_none le_rfl
    obtain ⟨hrun', hlane'⟩ := lane_of_queue hqueue rfl hlast
    refine ⟨⟨hqueues, fun c hc j st => ?_, hother⟩, fun j => ?_, ?_⟩
    · by_cases hj : j = s.senders.length
      · subst hj
        rw [hlast, hnone]
        simp [hc.symm]
      · rw [hold j hj]
    · by_cases hj : j = s.senders.length
      · subst hj
        simp [hrun', hlast]
      · have hidle : ¬ ∃ st, s.senders[j]? = some ⟨id, st⟩ ∧ st ≠ .finished := by
          rw [← hs id j, hrun]
          simp
        rw [hrun', hold j hj]
        simpa [Ne.symm hj] using hidle
    · have hhired : (s.lane id).worker.hired = .ready := by
        rw [lane, hrun]
        rfl
      rw [hhired] at hmove
      rw [hlane']
      exact .single hmove

private theorem moves_enqueue (hs : s.Manned) (random : ℕ → JsString) (t : ℤ) (m : JsString × Message) :
    Moves m.1 s (s.enqueue random t m) := by
  obtain ⟨id, message⟩ := m
  obtain ⟨hitems, hrunning⟩ := queue_eq s id
  rw [enqueue]
  dsimp only
  rw [hitems, hrunning]
  cases hrun : s.running id with
  | some k =>
    exact moves_of_queue hs rfl (fun c hc => OMap.get?_set_of_ne _ hc _) (OMap.get?_set_self _ _ _)
      (Or.inl ⟨hrun, rfl⟩)
  | none =>
    exact moves_of_queue hs rfl (fun c hc => OMap.get?_set_of_ne _ hc _) (OMap.get?_set_self _ _ _)
      (Or.inr ⟨hrun, rfl, rfl⟩)

/-! ### Every step moves every lane -/

private theorem lanes_call (hs : s.Manned) (loc : Locale) (random : ℕ → JsString) (c : Notifier.Call) :
    (s.call loc random c).Manned ∧
      ∀ id, ReflTransGen (Lane.Move MAX_QUEUE) (s.lane id) ((s.call loc random c).lane id) := by
  have hfold : ∀ (ms : List (JsString × Message)) (s : Sending), s.Manned →
      (ms.foldl (enqueue random c.time) s).Manned ∧
        ∀ id, ReflTransGen (Lane.Move MAX_QUEUE) (s.lane id) ((ms.foldl (enqueue random c.time) s).lane id) := by
    intro ms
    induction ms with
    | nil => exact fun s hs => ⟨hs, fun id => .refl⟩
    | cons m ms ih =>
      intro s hs
      obtain ⟨hs', hmoves⟩ := (moves_enqueue hs random c.time m).all hs
      obtain ⟨hs'', hrest⟩ := ih _ hs'
      exact ⟨hs'', fun id => (hmoves id).trans (hrest id)⟩
  exact hfold _ { s with notifier := s.notifier.call loc c } hs

/-- **Every step moves each lane as a lane may move.** -/
private theorem lanes_step (hs : s.Manned) (loc : Locale) (random : ℕ → JsString) (a : SendStep) :
    (s.step loc random a).Manned ∧
      ∀ id, ReflTransGen (Lane.Move MAX_QUEUE) (s.lane id) ((s.step loc random a).lane id) := by
  have hstay : s.Manned ∧ ∀ id, ReflTransGen (Lane.Move MAX_QUEUE) (s.lane id) (s.lane id) :=
    ⟨hs, fun id => .refl⟩
  cases a with
  | event e t => exact lanes_call hs loc random _
  | tick t => exact lanes_call hs loc random _
  | setConfig channels quiet digestAt =>
    refine ⟨hs, fun id => ?_⟩
    have hlog : laneLog id (s.log ++ [.config channels]) = laneLog id s.log := by
      rw [laneLog_append]
      exact List.append_nil _
    have hlane : (s.step loc random (.setConfig channels quiet digestAt)).lane id = s.lane id :=
      congrArg (Lane.mk _ _) hlog
    rw [hlane]
  | resume k =>
    rw [step]
    split
    · rename_i id hk
      exact (moves_resume hs hk).all hs
    · exact hstay
  | result k r =>
    rw [step]
    split
    · rename_i id next i hk
      exact (moves_result hs hk r).all hs
    · exact hstay
  | wake k =>
    rw [step]
    split
    · rename_i id next i ms hk
      exact (moves_wake hs hk).all hs
    · exact hstay

/-! ### What is queued -/

end Sending

/-- The channels stay, and what is queued comes after what was. -/
def Notifier.Adds (n n' : Notifier) : Prop := n'.channels = n.channels ∧ n.queued <+: n'.queued

namespace Notifier

theorem Adds.trans {n n' n'' : Notifier} (h : n.Adds n') (h' : n'.Adds n'') : n.Adds n'' :=
  ⟨h'.1.trans h.1, h.2.trans h'.2⟩

private theorem adds_deliver (n : Notifier) (m : Message) (to_ : Channel → Bool) : n.Adds (n.deliver m to_) :=
  ⟨rfl, List.prefix_append _ _⟩

private theorem adds_of_eq {n n' : Notifier} (hc : n'.channels = n.channels) (hq : n'.queued = n.queued) : n.Adds n' :=
  ⟨hc, hq ▸ List.prefix_rfl⟩

private theorem adds_releaseDue (loc : Locale) (n : Notifier) (t : ℤ) : n.Adds (n.releaseDue loc t) := by
  rw [releaseDue]
  split
  · rw [releaseHeld]
    split
    · exact adds_of_eq rfl rfl
    · exact adds_deliver _ _ _
  · exact adds_of_eq rfl rfl

private theorem adds_call (loc : Locale) (n : Notifier) (c : Call) : n.Adds (n.call loc c) := by
  refine (adds_releaseDue loc n c.time).trans ?_
  cases c with
  | event e t =>
    rw [call, onEvent, Call.time]
    dsimp only
    split
    · exact adds_of_eq rfl rfl
    · split
      · exact adds_of_eq rfl rfl
      · exact adds_deliver _ _ _
  | tick t =>
    rw [call, tick, Call.time]
    dsimp only
    split
    · split
      · exact adds_of_eq rfl rfl
      · exact ⟨rfl, List.prefix_append _ _⟩
    · exact adds_of_eq rfl rfl

end Notifier

namespace Sending

/-- The messages a log queues for a channel. -/
def messages (id : JsString) (log : List SendEvent) : List Message :=
  (Lane.queued (laneLog id log)).map Item.message

/-- The log queues for each channel what the notifier delivered to it. -/
def Told (s : Sending) : Prop :=
  ∀ id, messages id s.log = (s.notifier.queued.filter fun m => m.1 = id).map Prod.snd

private theorem messages_append (id : JsString) (log new : List SendEvent) :
    messages id (log ++ new) = messages id log ++ messages id new := by
  rw [messages, laneLog_append, Lane.queued, List.filterMap_append, List.map_append]
  rfl

/-- Nothing is queued by events that queue nothing. -/
private theorem messages_eq_nil {id : JsString} {log : List SendEvent} (h : ∀ e ∈ log, ∀ c x, e ≠ .queued c x) :
    messages id log = [] := by
  rw [messages, Lane.queued, laneLog, List.filterMap_filterMap, List.map_eq_nil_iff, List.filterMap_eq_nil_iff]
  intro e he
  cases e with
  | queued c x => exact absurd rfl (h _ he c x)
  | config channels => rfl
  | dropped c x | skipped c x | attempt c x i | sent c x | failed c x code =>
    rw [SendEvent.mark?]
    split <;> simp [Lane.Mark.queued?]

/-- What a message adds to the log. -/
private theorem log_enqueue (random : ℕ → JsString) (t : ℤ) (s : Sending) (m : JsString × Message) :
    ∃ item dropped, item.message = m.2 ∧ (∀ e ∈ dropped, ∃ x, e = SendEvent.dropped m.1 x) ∧
      (s.enqueue random t m).log = s.log ++ .queued m.1 item :: dropped ∧
      (s.enqueue random t m).notifier = s.notifier := by
  have hshift : ∀ items, ∀ e ∈ (shift m.1 items).2, ∃ x, e = SendEvent.dropped m.1 x := by
    intro items
    cases items with
    | nil => simp [shift]
    | cons x items =>
      rw [shift]
      split <;> simp
  refine ⟨⟨js "sv" ++ base36 t ++ random s.drawn, m.2⟩, _, rfl, hshift (((s.queues.get? m.1).getD ⟨[], none⟩).items ++
    [⟨js "sv" ++ base36 t ++ random s.drawn, m.2⟩]), ?_⟩
  rw [enqueue]
  dsimp only
  split
  · exact ⟨rfl, rfl⟩
  · exact ⟨rfl, rfl⟩

private theorem loop_events (channels : List Channel) (id : JsString) (items : List Item) :
    ∀ e ∈ (loop channels id items).1,
      (∃ x, e = .attempt id x 0) ∨
        ∃ x, e = .skipped id x ∧ channels.find? (fun c => c.id = id ∧ c.on) = none := by
  induction items with
  | nil => simp [loop]
  | cons next items ih =>
    cases hcur : channels.find? (fun c => c.id = id ∧ c.on) with
    | some cur =>
      rw [loop_cons_of_some hcur]
      simp
    | none =>
      rw [loop_cons_of_none hcur]
      intro e he
      rw [List.mem_cons] at he
      rcases he with rfl | he
      · exact Or.inr ⟨next, rfl, rfl⟩
      · exact hcur ▸ ih e he

/-- The channels of the last `setConfig` of a log. -/
def channelsAfter (channels : List Channel) (log : List SendEvent) : List Channel :=
  log.foldl (fun cs e => match e with
    | .config channels => channels
    | _ => cs) channels

/-- What a step does to the log: it queues the messages `ms`, skips only for channels that are not on, and follows the
settings. -/
structure Grows (ms : List (JsString × Message)) (s s' : Sending) (new : List SendEvent) : Prop where
  log : s'.log = s.log ++ new
  queued : s'.notifier.queued = s.notifier.queued ++ ms
  messages : ∀ id, messages id new = (ms.filter fun m => m.1 = id).map Prod.snd
  skipped : ∀ id x, .skipped id x ∈ new → s.notifier.channels.find? (fun c => c.id = id ∧ c.on) = none
  channels : (∀ cs, .config cs ∉ new) ∧ s'.notifier.channels = s.notifier.channels ∨
    new = [.config s'.notifier.channels]

/-- A step of a sender. -/
private theorem grows_sender {new : List SendEvent} (hlog : s'.log = s.log ++ new) (hn : s'.notifier = s.notifier)
    (hnew : ∀ e ∈ new, (∀ c x, e ≠ .queued c x) ∧ (∀ cs, e ≠ .config cs) ∧
      ∀ id x, e = .skipped id x → s.notifier.channels.find? (fun c => c.id = id ∧ c.on) = none) :
    Grows [] s s' new where
  log := hlog
  queued := by rw [hn, List.append_nil]
  messages id := messages_eq_nil fun e he => (hnew e he).1
  skipped id x hx := (hnew _ hx).2.2 id x rfl
  channels := Or.inl ⟨fun cs hcs => (hnew _ hcs).2.1 cs rfl, by rw [hn]⟩

private theorem grows_enqueue (random : ℕ → JsString) (t : ℤ) (ms : List (JsString × Message)) (s : Sending) :
    ∃ new, (ms.foldl (enqueue random t) s).log = s.log ++ new ∧ (ms.foldl (enqueue random t) s).notifier = s.notifier ∧
      (∀ id, messages id new = (ms.filter fun m => m.1 = id).map Prod.snd) ∧
      (∀ id x, .skipped id x ∉ new) ∧ ∀ cs, .config cs ∉ new := by
  induction ms generalizing s with
  | nil => exact ⟨[], (List.append_nil _).symm, rfl, fun _ => rfl, by simp, by simp⟩
  | cons m ms ih =>
    obtain ⟨item, dropped, hitem, hdropped, hlog, hn⟩ := log_enqueue random t s m
    obtain ⟨new, hlog', hn', hmessages, hskipped, hconfig⟩ := ih (s.enqueue random t m)
    have hone : ∀ id, messages id (.queued m.1 item :: dropped) = ([m].filter fun m => m.1 = id).map Prod.snd := by
      intro id
      have hnone : messages id dropped = [] := by
        refine messages_eq_nil fun e he c x => ?_
        obtain ⟨y, rfl⟩ := hdropped e he
        exact SendEvent.noConfusion
      rw [← List.singleton_append, messages_append, hnone, List.append_nil, messages]
      by_cases hid : m.1 = id
      · simp [laneLog, SendEvent.mark?, Lane.queued, Lane.Mark.queued?, hid, hitem]
      · simp [laneLog, SendEvent.mark?, Lane.queued, hid]
    refine ⟨.queued m.1 item :: dropped ++ new, ?_, hn'.trans hn, fun id => ?_, fun id x hx => ?_, fun cs hcs => ?_⟩
    · rw [List.foldl_cons, hlog', hlog, List.append_assoc]
    · rw [messages_append, hone, hmessages, ← List.map_append, ← List.filter_append]
      rfl
    · rw [List.mem_append, List.mem_cons] at hx
      rcases hx with (hx | hx) | hx
      · cases hx
      · obtain ⟨y, h⟩ := hdropped _ hx
        cases h
      · exact hskipped id x hx
    · rw [List.mem_append, List.mem_cons] at hcs
      rcases hcs with (hcs | hcs) | hcs
      · cases hcs
      · obtain ⟨y, h⟩ := hdropped _ hcs
        cases h
      · exact hconfig cs hcs

private theorem exists_grows (s : Sending) (loc : Locale) (random : ℕ → JsString) (a : SendStep) :
    ∃ ms new, Grows ms s (s.step loc random a) new := by
  have hstay : ∃ ms new, Grows ms s s new := ⟨[], [], grows_sender (List.append_nil _).symm rfl (by simp)⟩
  have hcall : ∀ c, ∃ ms new, Grows ms s (s.call loc random c) new := by
    intro c
    obtain ⟨hchannels, ms, hms⟩ := Notifier.adds_call loc s.notifier c
    obtain ⟨new, hlog, hn, hmessages, hskipped, hconfig⟩ :=
      grows_enqueue random c.time ms { s with notifier := s.notifier.call loc c }
    have hdrop : s.call loc random c = ms.foldl (enqueue random c.time) { s with notifier := s.notifier.call loc c } := by
      rw [call, ← hms, List.drop_left]
    rw [hdrop]
    exact ⟨ms, new, hlog, by rw [hn]; exact hms.symm, hmessages, fun id x hx => absurd hx (hskipped id x),
      Or.inl ⟨hconfig, by rw [hn]; exact hchannels⟩⟩
  cases a with
  | event e t => exact hcall _
  | tick t => exact hcall _
  | setConfig channels quiet digestAt =>
    exact ⟨[], [.config channels], rfl, (List.append_nil _).symm, fun id => rfl, by simp, Or.inr rfl⟩
  | resume k =>
    rw [step]
    split
    · rename_i id hk
      refine ⟨[], _, grows_sender rfl rfl fun e he => ?_⟩
      rcases loop_events _ _ _ e he with ⟨x, rfl⟩ | ⟨x, rfl, hnone⟩
      · simp
      · refine ⟨by simp, by simp, fun c y h => ?_⟩
        cases h
        exact hnone
    · exact hstay
  | result k r =>
    rw [step]
    split
    · cases r with
      | ok => exact ⟨[], _, grows_sender rfl rfl (by simp)⟩
      | error code =>
        rw [result]
        split
        · exact ⟨[], _, grows_sender rfl rfl (by simp)⟩
        · exact ⟨[], _, grows_sender rfl rfl (by simp)⟩
    · exact hstay
  | wake k =>
    rw [step]
    split
    · exact ⟨[], _, grows_sender rfl rfl (by simp)⟩
    · exact hstay

/-! ### Every run -/

variable {s s' : Sending}

/-- The log so far: what it queued is what the notifier delivered, it follows the settings, and skips only where the
channel is not on. -/
structure Logged (channels : List Channel) (s : Sending) : Prop where
  told : ∀ id, messages id s.log = (s.notifier.queued.filter fun m => m.1 = id).map Prod.snd
  settings : channelsAfter channels s.log = s.notifier.channels
  skipped : ∀ pre id x post, s.log = pre ++ .skipped id x :: post →
    ∀ c ∈ channelsAfter channels pre, c.id = id → c.on = false

private theorem channelsAfter_of_no_config {channels : List Channel} {log : List SendEvent}
    (h : ∀ cs, SendEvent.config cs ∉ log) : channelsAfter channels log = channels := by
  induction log with
  | nil => rfl
  | cons e log ih =>
    have hlog := ih fun cs hcs => h cs (List.mem_cons_of_mem _ hcs)
    cases e with
    | config cs => exact absurd List.mem_cons_self (h cs)
    | queued c x | dropped c x | skipped c x | attempt c x i | sent c x | failed c x code => exact hlog

private theorem channelsAfter_append (channels : List Channel) (log new : List SendEvent) :
    channelsAfter channels (log ++ new) = channelsAfter (channelsAfter channels log) new :=
  List.foldl_append

theorem Logged.step {channels : List Channel} (h : s.Logged channels) (loc : Locale) (random : ℕ → JsString)
    (a : SendStep) : (s.step loc random a).Logged channels := by
  obtain ⟨ms, new, hgrows⟩ := exists_grows s loc random a
  generalize s.step loc random a = s' at hgrows
  refine ⟨fun id => ?_, ?_, fun pre id x post e => ?_⟩
  · rw [hgrows.log, hgrows.queued, messages_append, h.told, hgrows.messages, List.filter_append, List.map_append]
  · rw [hgrows.log, channelsAfter_append, h.settings]
    rcases hgrows.channels with ⟨hnone, heq⟩ | hone
    · rw [channelsAfter_of_no_config hnone, heq]
    · rw [hone]
      rfl
  · rw [hgrows.log] at e
    obtain ⟨post', hold⟩ | ⟨pre', rfl, hnew⟩ := Lane.split_append e
    · exact h.skipped pre id x post' hold
    · -- nothing before it in the step sets the channels
      have hmem : SendEvent.skipped id x ∈ new := by rw [hnew]; simp
      have hnone : ∀ cs, SendEvent.config cs ∉ pre' := by
        intro cs hcs
        rcases hgrows.channels with ⟨hnone, -⟩ | hone
        · exact hnone cs (by rw [hnew]; exact List.mem_append_left _ hcs)
        · rw [hone, List.mem_singleton] at hmem
          cases hmem
      intro c hc hid
      rw [channelsAfter_append, h.settings, channelsAfter_of_no_config hnone] at hc
      have hfind := List.find?_eq_none.1 (hgrows.skipped id x hmem) c hc
      simpa [hid] using hfind

private theorem logged_start (n : Notifier) : (start n).Logged n.channels where
  told _ := rfl
  settings := rfl
  skipped pre id x post h := by simp [start] at h

private theorem manned_start (n : Notifier) : (start n).Manned := by
  intro id k
  simp [start, running]

/-- Every lane of a run is sound. -/
private theorem lanes_run (loc : Locale) (random : ℕ → JsString) (n : Notifier) (steps : List SendStep) :
    (Runs.run (step loc random) (start n) steps).Manned ∧
      ∀ id, ((Runs.run (step loc random) (start n) steps).lane id).Sound MAX_QUEUE := by
  have hstep : ∀ (s : Sending) a, (s.Manned ∧ ∀ id, (s.lane id).Sound MAX_QUEUE) →
      (s.step loc random a).Manned ∧ ∀ id, ((s.step loc random a).lane id).Sound MAX_QUEUE := by
    rintro s a ⟨hs, hsound⟩
    obtain ⟨hs', hmoves⟩ := lanes_step hs loc random a
    exact ⟨hs', fun id => (hsound id).moves (hmoves id)⟩
  exact Runs.invariant hstep ⟨manned_start n, fun id => Lane.sound_empty MAX_QUEUE⟩ steps

/-- **The senders of every run.**  For every order of events, ticks, results of attempts, timers and settings, and every
channel: its messages are those the notifier delivered to it; they are tried one at a time, in the order they were
queued and each with the transaction id it was queued with; those that left the queue and those in it are those queued,
in one order; one is dropped only where more than `MAX_QUEUE` were queued, and skipped only where the channel is gone or
off; and a queue that is not empty has its one sender. -/
theorem sent_in_order (loc : Locale) (random : ℕ → JsString) (n : Notifier) (steps : List SendStep) (id : JsString) :
    let s := Runs.run (step loc random) (start n) steps
    let l := s.lane id
    (Lane.queued l.log).map Item.message = (s.notifier.queued.filter fun m => m.1 = id).map Prod.snd ∧
      (∃ past inside, Flights.Spells (Lane.flights l.log) past inside ∧
        ((past ++ inside.toList).map Flights.Flight.item).Sublist (Lane.queued l.log)) ∧
      Lane.queued l.log = Lane.left l.log ++ l.items ∧
      (∀ pre x post, s.log = pre ++ .dropped id x :: post →
        (Lane.left (laneLog id pre)).length + MAX_QUEUE < (Lane.queued (laneLog id pre)).length) ∧
      (∀ pre x post, s.log = pre ++ .skipped id x :: post →
        ∀ c ∈ channelsAfter n.channels pre, c.id = id → c.on = false) ∧
      (l.items ≠ [] → ∃ (k : ℕ) (state : SenderState), s.senders[k]? = some ⟨id, state⟩ ∧ state ≠ .finished) ∧
      ∀ (j k : ℕ) (state state' : SenderState), s.senders[j]? = some ⟨id, state⟩ → s.senders[k]? = some ⟨id, state'⟩ →
        state ≠ .finished → state' ≠ .finished → j = k := by
  intro s l
  obtain ⟨hmanned, hsound⟩ := lanes_run loc random n steps
  have hlogged : s.Logged n.channels :=
    Runs.invariant (I := Logged n.channels) (fun s a h => h.step loc random a) (logged_start n) steps
  refine ⟨hlogged.told id, (hsound id).spells, (hsound id).fifo, ?_, fun pre x post => hlogged.skipped pre id x post,
    fun hne => ?_, ?_⟩
  · intro pre x post e
    have hlog : l.log = laneLog id pre ++ .dropped x :: laneLog id post := by
      have hmark : (SendEvent.dropped id x).mark? id = some (.dropped x) := if_pos rfl
      rw [← laneLog_cons hmark, ← laneLog_append, ← e]
      rfl
    exact (hsound id).dropped _ x _ hlog
  · cases hrun : s.running id with
    | none =>
      have hgone : l.worker = .gone := by
        show ((s.running id).bind fun k => s.senders[k]?).elim Lane.Worker.gone (fun x => x.state.worker) = .gone
        rw [hrun]
        rfl
      exact absurd hgone ((hsound id).manned hne)
    | some k => exact ⟨k, (hmanned id k).1 hrun⟩
  · intro j k state state' hj hk hstate hstate'
    have hrunj := (hmanned id j).2 ⟨state, hj, hstate⟩
    have hrunk := (hmanned id k).2 ⟨state', hk, hstate'⟩
    exact Option.some.inj (hrunj.symm.trans hrunk)

end Sending

end Servitals
