import Servitals.AgentServer

/-!
# How often a node pushes and is woken

`wakeNode` of `hub/server.js`, the only caller of the agent API's `wake`, beside the agents' requests: a page that asks for
fresh readings wakes a node unless it pushed or was woken in the last five seconds.  The times of the accepted pushes of a
node (those of their heads) are five seconds apart, so are its wakes, and a wake and the pushes before it
(`pushes_and_wakes_apart`), in whatever order heads, bodies and pages come and wherever the clock goes.

`wakeNode` reads the clock, and `wake` reads it again; in between it does not go back.
-/

namespace Servitals

namespace AgentServer

variable {σ : Type*}

/-- `fresh`: the node pushed in the last five seconds. -/
def isFresh (s : AgentServer σ) (id : NodeId) (now : ℤ) : Bool := decide (now - (s.api.lastPush.get? id).getD 0 < 5000)

/-- `pending`: it was woken in the last five seconds. -/
def wakePending (s : AgentServer σ) (id : NodeId) (now : ℤ) : Bool := decide (now - (s.lastWake.get? id).getD 0 < 5000)

/-- `wakeNode`, with `fresh` and `woke` of its answer; the wake reads the clock `later` ms after it. -/
def wakeNode (s : AgentServer σ) (id : NodeId) (now : ℤ) (later : ℕ) : AgentServer σ × Bool × Bool :=
  if !s.isFresh id now && !s.wakePending id now then (s.wake id (now + later), s.isFresh id now, (s.waiters.get? id).isSome)
  else (s, s.isFresh id now, false)

/-- What is told of a node: a push was accepted whose head came at a time, or it was woken at a time. -/
inductive Event
  | pushed (id : NodeId) (time : ℤ)
  | woken (id : NodeId) (time : ℤ)

/-- A step of the agents' requests, or a page's wish for fresh readings. -/
inductive Act
  | agent (op : { op : Op // ∀ id, op ≠ .wake id })
  | refresh (id : NodeId) (later : ℕ)

/-- The server, and what happened to its nodes. -/
structure Watched (σ : Type*) where
  server : AgentServer σ
  log : List Event

section

variable (c : Crypto) (valid : List UInt8 → Bool) (maxBody : ℕ) (onSnapshot : σ → NodeId → List UInt8 → ℤ → σ)

/-- The push that a step accepts. -/
def pushOf (s : AgentServer σ) (x : Step) : List Event :=
  match x.op with
  | .body n b => match s.reading.get? n with
    | some q => match q.endpoint, (s.api.complete c valid maxBody q b x.time).2 with
      | .push, .ok () => [.pushed q.node q.hubMs]
      | _, _ => []
    | none => []
  | _ => []

def Watched.act (w : Watched σ) (x : ℤ × Act) : Watched σ :=
  match x.2 with
  | .agent op => ⟨w.server.step c valid maxBody onSnapshot ⟨x.1, op.1⟩, w.log ++ w.server.pushOf c valid maxBody ⟨x.1, op.1⟩⟩
  | .refresh id later =>
    let (s, _, woke) := w.server.wakeNode id x.1 later
    ⟨s, w.log ++ if woke then [.woken id (x.1 + later)] else []⟩

end

/-- The samples that nodes were asked for. -/
def samples (s : AgentServer σ) : ℕ := s.answers.countP fun a => a.2 = .sample

def isWoken : Event → Bool
  | .woken _ _ => true
  | .pushed _ _ => false

/-- Of two events of one node, the second is five seconds after the first; a push is only compared with a push. -/
def Spaced : Event → Event → Prop
  | .pushed id a, .pushed id' b => id = id' → a + 5000 ≤ b
  | .woken id a, .woken id' b => id = id' → a + 5000 ≤ b
  | .pushed id a, .woken id' b => id = id' → a + 5000 ≤ b
  | .woken _ _, .pushed _ _ => True

/-- An event is not after what the server remembers of its kind. -/
def Remembered (s : AgentServer σ) : Event → Prop
  | .pushed id a => a ≤ (s.api.lastPush.get? id).getD 0
  | .woken id a => a ≤ (s.lastWake.get? id).getD 0

/-! ### What a step leaves as it was -/

/-- Nothing was accepted, and no sample asked for. -/
structure Quiet (s s' : AgentServer σ) : Prop where
  lastPush : s'.api.lastPush = s.api.lastPush
  lastWake : s'.lastWake = s.lastWake
  samples : s'.samples = s.samples

theorem Quiet.refl (s : AgentServer σ) : Quiet s s := ⟨rfl, rfl, rfl⟩

theorem Quiet.trans {s s' s'' : AgentServer σ} (h : Quiet s s') (h' : Quiet s' s'') : Quiet s s'' :=
  ⟨h'.lastPush.trans h.lastPush, h'.lastWake.trans h.lastWake, h'.samples.trans h.samples⟩

private theorem samples_answer (s : AgentServer σ) (n : ℕ) {r : Reply} (hr : r ≠ .sample) :
    (s.answer n r).samples = s.samples := by
  rw [samples, answer, List.countP_append, List.countP_singleton, if_neg (by simpa using hr)]
  rfl

private theorem quiet_finishWait (s : AgentServer σ) (id : NodeId) (n : ℕ) {r : Reply} (hr : r ≠ .sample) :
    Quiet s (s.finishWait id n r) := by
  unfold finishWait
  dsimp only
  split
  · exact ⟨rfl, rfl, rfl⟩
  · exact ⟨rfl, rfl, samples_answer (s.forget id n) n hr⟩

private theorem quiet_openWait (s : AgentServer σ) (id : NodeId) (n : ℕ) : Quiet s (s.openWait id n) := by
  unfold openWait
  cases s.waiters.get? id with
  | none => exact ⟨rfl, rfl, rfl⟩
  | some m =>
    obtain ⟨h1, h2, h3⟩ := quiet_finishWait s id m (r := .nothing) (by decide)
    exact ⟨h1, h2, h3⟩

private theorem quiet_finishWaits (es : List (NodeId × ℕ)) (s : AgentServer σ) :
    Quiet s (es.foldl (fun s e => s.finishWait e.1 e.2 .nothing) s) := by
  induction es generalizing s with
  | nil => exact .refl s
  | cons e es ih => exact (quiet_finishWait s e.1 e.2 (by decide)).trans (ih _)

variable {c : Crypto} {valid : List UInt8 → Bool} {maxBody : ℕ} {onSnapshot : σ → NodeId → List UInt8 → ℤ → σ}

private theorem quiet_head (s : AgentServer σ) (n : ℕ) (h : Head) (t : ℤ) : Quiet s (s.head maxBody n h t) := by
  have hsame := (AgentApi.checkHead_spec maxBody s.api h t).1
  unfold head
  split
  · exact .refl s
  · generalize s.api.checkHead maxBody h t = r at hsame
    obtain ⟨api, e | q⟩ := r
    · exact ⟨hsame.lastPush, rfl, samples_answer _ n (by simp)⟩
    · exact ⟨hsame.lastPush, rfl, rfl⟩

variable (c valid maxBody) in
/-- A complete request is accepted, a push only when the last one is five seconds old, or refused with the rest left as it
was. -/
private theorem complete_cases (a : AgentApi) (q : Pending) (b : Option (List UInt8)) (t : ℤ) :
    (a.complete c valid maxBody q b t = (a.accept q, .ok ()) ∧
        (q.endpoint = .push → (a.lastPush.get? q.node).getD 0 + 5000 ≤ q.hubMs)) ∨
      ∃ api e, a.complete c valid maxBody q b t = (api, .error e) ∧ api.lastPush = a.lastPush := by
  rcases AgentApi.complete_spec c valid maxBody a q b t with ⟨b', hb, hok, -⟩ | ⟨hno, hsame, -⟩
  · refine Or.inl ⟨?_, fun hpush => ?_⟩
    · rw [AgentApi.complete, hb]
      dsimp only
      rw [hok]
    · -- a push that comes too soon does not pass the checks
      by_contra hsoon
      have htoo : a.tooSoon q = true := by
        refine decide_eq_true (?_ : _ < (5000 : ℤ))
        omega
      unfold AgentApi.checkBody at hok
      rw [hpush] at hok
      simp only [htoo, if_true] at hok
      split at hok <;> cases hok
  · refine Or.inr ⟨(a.complete c valid maxBody q b t).1, ?_⟩
    have herror : ∃ e, (a.complete c valid maxBody q b t).2 = .error e := by
      unfold AgentApi.complete
      split
      · exact ⟨_, rfl⟩
      · rename_i b' hb
        split
        · rename_i hok
          exact absurd hok (hno b' hb)
        · exact ⟨_, rfl⟩
        · exact ⟨_, rfl⟩
    obtain ⟨e, he⟩ := herror
    exact ⟨e, Prod.ext rfl he, hsame.lastPush⟩

variable (c valid maxBody onSnapshot) in
/-- A body that is no accepted push changes nothing; one that is sets the time of the node's last push, which was five
seconds before. -/
private theorem body_cases (s : AgentServer σ) (n : ℕ) (b : Option (List UInt8)) (t : ℤ) :
    (s.pushOf c valid maxBody ⟨t, .body n b⟩ = [] ∧ Quiet s (s.body c valid maxBody onSnapshot n b t)) ∨
      ∃ id time, s.pushOf c valid maxBody ⟨t, .body n b⟩ = [.pushed id time] ∧
        (s.api.lastPush.get? id).getD 0 + 5000 ≤ time ∧
        (s.body c valid maxBody onSnapshot n b t).api.lastPush = s.api.lastPush.set id time ∧
        (s.body c valid maxBody onSnapshot n b t).lastWake = s.lastWake ∧
        (s.body c valid maxBody onSnapshot n b t).samples = s.samples := by
  cases hq : s.reading.get? n with
  | none => exact Or.inl (by simp only [pushOf, body, hq]; exact ⟨trivial, .refl s⟩)
  | some q =>
    rcases complete_cases c valid maxBody s.api q b t with ⟨hc, hrate⟩ | ⟨api, e, hc, hlast⟩
    · cases hend : q.endpoint with
      | push =>
        simp only [pushOf, body, hq, hc, hend]
        refine Or.inr ⟨q.node, q.hubMs, rfl, hrate hend, ?_, rfl, ?_⟩
        · exact if_pos hend
        · exact samples_answer _ n (by simp)
      | wait =>
        have hkeep : (s.api.accept q).lastPush = s.api.lastPush := if_neg (by rw [hend]; decide)
        simp only [pushOf, body, hq, hc, hend]
        have hopen := quiet_openWait { s with api := s.api.accept q, reading := s.reading.erase n } q.node n
        exact Or.inl ⟨trivial, hopen.lastPush.trans hkeep, hopen.lastWake, hopen.samples⟩
    · refine Or.inl ⟨?_, ?_⟩
      · simp only [pushOf, hq, hc]
        cases q.endpoint <;> rfl
      · simp only [body, hq, hc]
        exact ⟨hlast, rfl, samples_answer _ n (by simp)⟩

/-! ### What a step remembers -/

/-- The events so far are apart, the server remembers the last ones, and each wake asked for a sample. -/
structure Paced (w : Watched σ) : Prop where
  sound : w.server.Sound
  apart : w.log.Pairwise Spaced
  remembered : ∀ e ∈ w.log, w.server.Remembered e
  samples : w.server.samples = w.log.countP isWoken

theorem Remembered.quiet {s s' : AgentServer σ} (h : Quiet s s') {e : Event} (he : s.Remembered e) : s'.Remembered e := by
  cases e with
  | pushed id a =>
    show a ≤ (s'.api.lastPush.get? id).getD 0
    rw [h.lastPush]
    exact he
  | woken id a =>
    show a ≤ (s'.lastWake.get? id).getD 0
    rw [h.lastWake]
    exact he

theorem Paced.quiet {w : Watched σ} (hw : Paced w) {s : AgentServer σ} (hsound : s.Sound) (h : Quiet w.server s) :
    Paced ⟨s, w.log⟩ :=
  ⟨hsound, hw.apart, fun e he => (hw.remembered e he).quiet h, h.samples.trans hw.samples⟩

/-- A push that comes five seconds after the last one the server remembers. -/
theorem Paced.pushed {w : Watched σ} (hw : Paced w) {s : AgentServer σ} (hsound : s.Sound) {id : NodeId} {time : ℤ}
    (htime : (w.server.api.lastPush.get? id).getD 0 + 5000 ≤ time)
    (hlast : s.api.lastPush = w.server.api.lastPush.set id time) (hwake : s.lastWake = w.server.lastWake)
    (hsamples : s.samples = w.server.samples) : Paced ⟨s, w.log ++ [.pushed id time]⟩ := by
  refine ⟨hsound, List.pairwise_append.2 ⟨hw.apart, List.pairwise_singleton _ _, ?_⟩, ?_, ?_⟩
  · intro e he e' he'
    rw [List.mem_singleton.1 he']
    have hrem := hw.remembered e he
    cases e with
    | woken id' a => trivial
    | pushed id' a =>
      intro hid
      have hrem : a ≤ (w.server.api.lastPush.get? id').getD 0 := hrem
      rw [hid] at hrem
      omega
  · intro e he
    rcases List.mem_append.1 he with he | he
    · have hrem := hw.remembered e he
      cases e with
      | woken id' a =>
        show a ≤ (s.lastWake.get? id').getD 0
        rw [hwake]
        exact hrem
      | pushed id' a =>
        have hrem : a ≤ (w.server.api.lastPush.get? id').getD 0 := hrem
        show a ≤ (s.api.lastPush.get? id').getD 0
        rw [hlast, OMap.get?_set]
        split
        · -- the push of the same node before it
          rename_i hid
          rw [hid] at hrem
          rw [Option.getD_some]
          omega
        · exact hrem
    · rw [List.mem_singleton.1 he]
      show time ≤ (s.api.lastPush.get? id).getD 0
      rw [hlast, OMap.get?_set_self, Option.getD_some]
  · show s.samples = _
    rw [hsamples, hw.samples, List.countP_append]
    simp [isWoken]

/-- A wake of a node that neither pushed nor was woken in the last five seconds. -/
theorem Paced.woken {w : Watched σ} (hw : Paced w) {s : AgentServer σ} (hsound : s.Sound) {id : NodeId} {time : ℤ}
    (hpush : (w.server.api.lastPush.get? id).getD 0 + 5000 ≤ time)
    (htime : (w.server.lastWake.get? id).getD 0 + 5000 ≤ time)
    (hwake : s.lastWake = w.server.lastWake.set id time) (hlast : s.api.lastPush = w.server.api.lastPush)
    (hsamples : s.samples = w.server.samples + 1) : Paced ⟨s, w.log ++ [.woken id time]⟩ := by
  refine ⟨hsound, List.pairwise_append.2 ⟨hw.apart, List.pairwise_singleton _ _, ?_⟩, ?_, ?_⟩
  · intro e he e' he'
    rw [List.mem_singleton.1 he']
    have hrem := hw.remembered e he
    cases e with
    | woken id' a =>
      intro hid
      have hrem : a ≤ (w.server.lastWake.get? id').getD 0 := hrem
      rw [hid] at hrem
      omega
    | pushed id' a =>
      intro hid
      have hrem : a ≤ (w.server.api.lastPush.get? id').getD 0 := hrem
      rw [hid] at hrem
      omega
  · intro e he
    rcases List.mem_append.1 he with he | he
    · have hrem := hw.remembered e he
      cases e with
      | pushed id' a =>
        show a ≤ (s.api.lastPush.get? id').getD 0
        rw [hlast]
        exact hrem
      | woken id' a =>
        have hrem : a ≤ (w.server.lastWake.get? id').getD 0 := hrem
        show a ≤ (s.lastWake.get? id').getD 0
        rw [hwake, OMap.get?_set]
        split
        · rename_i hid
          rw [hid] at hrem
          rw [Option.getD_some]
          omega
        · exact hrem
    · rw [List.mem_singleton.1 he]
      show time ≤ (s.lastWake.get? id).getD 0
      rw [hwake, OMap.get?_set_self, Option.getD_some]
  · show s.samples = _
    rw [hsamples, hw.samples, List.countP_append]
    simp [isWoken]

/-- A wake that finds an open wait of the node asks for a sample. -/
private theorem wake_of_open {s : AgentServer σ} (hs : s.Sound) {id : NodeId} {n : ℕ}
    (hn : s.waiters.get? id = some n) (t : ℤ) :
    (s.wake id t).lastWake = s.lastWake.set id t ∧ (s.wake id t).api = s.api ∧
      (s.wake id t).samples = s.samples + 1 := by
  obtain ⟨heq, -, -⟩ := finishWait_of_open (hs.congr s.api s.hub (s.lastWake.set id t)) hn .sample
  have hwake : s.wake id t = (({ s with lastWake := s.lastWake.set id t }).forget id n).answer n .sample := by
    rw [wake, hn]
    exact heq
  rw [hwake]
  refine ⟨rfl, rfl, ?_⟩
  rw [samples, answer, List.countP_append]
  rfl

theorem Paced.refresh {w : Watched σ} (hw : Paced w) (id : NodeId) (now : ℤ) (later : ℕ) :
    Paced (w.act c valid maxBody onSnapshot (now, .refresh id later)) := by
  show Paced ⟨(w.server.wakeNode id now later).1,
    w.log ++ if (w.server.wakeNode id now later).2.2 then [.woken id (now + later)] else []⟩
  unfold wakeNode
  split
  · rename_i hdue
    simp only [isFresh, wakePending, Bool.and_eq_true, Bool.not_eq_true', decide_eq_false_iff_not] at hdue
    cases hn : w.server.waiters.get? id with
    | none =>
      -- no wait of the node is open: nothing happens
      have hsame : w.server.wake id (now + later) = w.server := by rw [wake, hn]
      dsimp only
      rw [hsame, Option.isSome_none, if_neg (by decide), List.append_nil]
      exact hw
    | some n =>
      obtain ⟨hwake, hapi, hsamples⟩ := wake_of_open hw.sound hn (now + later)
      dsimp only
      rw [Option.isSome_some, if_pos rfl]
      exact hw.woken (hw.sound.wake id _) (by omega) (by omega) hwake (by rw [hapi]) hsamples
  · dsimp only
    rw [if_neg (by decide), List.append_nil]
    exact hw

theorem Paced.agent {w : Watched σ} (hw : Paced w) (t : ℤ) (op : { op : Op // ∀ id, op ≠ .wake id }) :
    Paced (w.act c valid maxBody onSnapshot (t, .agent op)) := by
  have hquiet : ∀ s : AgentServer σ, s.Sound → Quiet w.server s → Paced ⟨s, w.log ++ []⟩ := by
    intro s hsound h
    rw [List.append_nil]
    exact hw.quiet hsound h
  have hsound : (w.server.step c valid maxBody onSnapshot ⟨t, op.1⟩).Sound := hw.sound.step ⟨t, op.1⟩
  show Paced ⟨w.server.step c valid maxBody onSnapshot ⟨t, op.1⟩, w.log ++ w.server.pushOf c valid maxBody ⟨t, op.1⟩⟩
  obtain ⟨op, hop⟩ := op
  cases op with
  | head n h => exact hquiet _ hsound (quiet_head w.server n h t)
  | body n b =>
    rcases body_cases c valid maxBody onSnapshot w.server n b t with
      ⟨hnone, h⟩ | ⟨id, time, hone, htime, hlast, hwake, hsamples⟩
    · rw [hnone]
      exact hquiet _ hsound h
    · rw [hone]
      exact hw.pushed hsound htime hlast hwake hsamples
  | timeout n =>
    refine hquiet _ hsound ?_
    show Quiet w.server (w.server.timeout n)
    unfold timeout
    split
    · exact quiet_finishWait w.server _ n (by decide)
    · exact .refl _
  | closed n =>
    refine hquiet _ hsound ?_
    show Quiet w.server (w.server.closed n)
    unfold closed
    split
    · exact ⟨rfl, rfl, rfl⟩
    · exact .refl _
  | wake id => exact absurd rfl (hop id)
  | close => exact hquiet _ hsound (quiet_finishWaits _ w.server)
  | store op => exact hquiet _ hsound ⟨rfl, rfl, rfl⟩

theorem Paced.act {w : Watched σ} (hw : Paced w) (x : ℤ × Act) : Paced (w.act c valid maxBody onSnapshot x) := by
  obtain ⟨t, x⟩ := x
  cases x with
  | agent op => exact hw.agent t op
  | refresh id later => exact hw.refresh id t later

/-- **Pushes and wakes apart.**  In every order of heads, bodies, timers, closed responses, shutdowns, changes of the node
store and pages that ask for fresh readings, at whatever times of the hub's clock: of one node, the heads of two accepted
pushes are five seconds apart, so are two wakes, and a wake comes five seconds after the pushes accepted before it.  An agent
is asked for a sample once for each wake, and for no other reason. -/
theorem pushes_and_wakes_apart (c : Crypto) (valid : List UInt8 → Bool) (maxBody : ℕ)
    (onSnapshot : σ → NodeId → List UInt8 → ℤ → σ) (api : AgentApi) (hub : σ) (run : List (ℤ × Act)) :
    let w := Runs.run (Watched.act c valid maxBody onSnapshot) ⟨start api hub, []⟩ run
    w.log.Pairwise Spaced ∧ w.server.samples = w.log.countP isWoken := by
  intro w
  have hw : Paced w :=
    Runs.invariant (fun w x hw => hw.act x)
      ⟨sound_start api hub, List.Pairwise.nil, fun e he => absurd he List.not_mem_nil, rfl⟩ run
  exact ⟨hw.apart, hw.samples⟩

end AgentServer

end Servitals
