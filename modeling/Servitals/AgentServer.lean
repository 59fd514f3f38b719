import Servitals.AgentApi
import Servitals.Lib.Runs

/-!
# Answers to agents

`createAgentApi` of `hub/lib/agentapi.js` with the requests it answers: a push is answered at once, a wait stays open
until a newer one of its node replaces it, its timer fires, its client goes away, the node is woken or the hub shuts
down.  Requests have numbers; a request's head, its body, its timer and the close of its response are steps of their
own, and each timer may fire at any time.  The answers as they are written are those of
`AgentWire`.

`hub` is what the snapshot of an accepted push goes to (`onSnapshot`: the latest snapshots, the history, the alerts), a
parameter here.  `answers` and `gone` are history variables.
-/

namespace Servitals

/-- The status code of a refusal. -/
def Refusal.code : Refusal → ℕ
  | notFound => 404
  | methodNotAllowed => 405
  | queryNotAllowed => 400
  | unsupportedProtocol => 426
  | unknownNode | clockSkew | replay | badSignature => 401
  | tooLarge => 413
  | invalidSnapshot => 422
  | rateLimited => 429

/-- An answer: a refusal, that a push is stored, the end of a wait, or that a sample is wanted. -/
inductive Reply
  | refused (e : Refusal)
  | pushed | nothing | sample
  deriving DecidableEq

namespace Reply

def code : Reply → ℕ
  | refused e => e.code
  | pushed | sample => 200
  | nothing => 204

def success (r : Reply) : Bool := r.code < 300

end Reply

/-- The agent API, the requests on their way and the open waits. -/
structure AgentServer (σ : Type*) where
  api : AgentApi
  hub : σ
  reading : OMap ℕ Pending
  waiters : OMap NodeId ℕ
  timers : OMap ℕ NodeId
  listening : OMap ℕ NodeId
  lastWake : OMap NodeId ℤ
  known : List ℕ
  answers : List (ℕ × Reply)
  gone : List ℕ

namespace AgentServer

variable {σ : Type*}

/-- The server of a new process. -/
def start (api : AgentApi) (hub : σ) : AgentServer σ := ⟨api, hub, .empty, .empty, .empty, .empty, .empty, [], [], []⟩

/-- Was the request answered (`writableEnded`)? -/
def Answered (s : AgentServer σ) (n : ℕ) : Prop := n ∈ s.answers.map Prod.fst

instance (s : AgentServer σ) (n : ℕ) : Decidable (s.Answered n) := inferInstanceAs (Decidable (_ ∈ _))

def answer (s : AgentServer σ) (n : ℕ) (r : Reply) : AgentServer σ := { s with answers := s.answers ++ [(n, r)] }

/-- A wait is taken out of the open ones, if it is its node's. -/
def forget (s : AgentServer σ) (id : NodeId) (n : ℕ) : AgentServer σ :=
  { s with
    timers := s.timers.erase n
    waiters := if s.waiters.get? id = some n then s.waiters.erase id else s.waiters }

/-- `finishWait` -/
def finishWait (s : AgentServer σ) (id : NodeId) (n : ℕ) (r : Reply) : AgentServer σ :=
  let s := s.forget id n
  if s.Answered n then s else s.answer n r

/-- A wait that was accepted: it replaces the one its node has. -/
def openWait (s : AgentServer σ) (id : NodeId) (n : ℕ) : AgentServer σ :=
  let s := match s.waiters.get? id with
    | some m => s.finishWait id m .nothing
    | none => s
  { s with timers := s.timers.set n id, waiters := s.waiters.set id n, listening := s.listening.set n id }

section

variable (c : Crypto) (valid : List UInt8 → Bool) (maxBody : ℕ) (onSnapshot : σ → NodeId → List UInt8 → ℤ → σ)

/-- The head of a new request arrives. -/
def head (s : AgentServer σ) (n : ℕ) (h : Head) (t : ℤ) : AgentServer σ :=
  if n ∈ s.known then s
  else match s.api.checkHead maxBody h t with
    | (api, .ok q) => { s with api := api, known := n :: s.known, reading := s.reading.set n q }
    | (api, .error e) => { s with api := api, known := n :: s.known }.answer n (.refused e)

/-- The body of a request is complete. -/
def body (s : AgentServer σ) (n : ℕ) (body : Option (List UInt8)) (t : ℤ) : AgentServer σ :=
  match s.reading.get? n with
  | none => s
  | some q =>
    let s := { s with reading := s.reading.erase n }
    match s.api.complete c valid maxBody q body t with
    | (api, .error e) => { s with api := api }.answer n (.refused e)
    | (api, .ok ()) => match q.endpoint with
      | .push => { s with api := api, hub := onSnapshot s.hub q.node (body.getD []) t }.answer n .pushed
      | .wait => { s with api := api }.openWait q.node n

/-- The timer of a wait fires. -/
def timeout (s : AgentServer σ) (n : ℕ) : AgentServer σ :=
  match s.timers.get? n with
  | some id => s.finishWait id n .nothing
  | none => s

/-- The response of a wait closes: its client goes away, or it was answered. -/
def closed (s : AgentServer σ) (n : ℕ) : AgentServer σ :=
  match s.listening.get? n with
  | some id => { s.forget id n with gone := n :: s.gone }
  | none => s

/-- `wake` -/
def wake (s : AgentServer σ) (id : NodeId) (t : ℤ) : AgentServer σ :=
  match s.waiters.get? id with
  | some n => { s with lastWake := s.lastWake.set id t }.finishWait id n .sample
  | none => s

/-- `close`: the open waits of a hub that shuts down are answered. -/
def close (s : AgentServer σ) : AgentServer σ := s.waiters.entries.foldl (fun s e => s.finishWait e.1 e.2 .nothing) s

/-- A step of the server. -/
inductive Op
  | head (n : ℕ) (h : Head)
  | body (n : ℕ) (body : Option (List UInt8))
  | timeout (n : ℕ)
  | closed (n : ℕ)
  | wake (id : NodeId)
  | close
  | store (op : NodeStore.StoreOp)

/-- A step at a time of the hub's clock. -/
structure Step where
  time : ℤ
  op : Op

def step (s : AgentServer σ) (x : Step) : AgentServer σ :=
  match x.op with
  | .head n h => s.head maxBody n h x.time
  | .body n b => s.body c valid maxBody onSnapshot n b x.time
  | .timeout n => s.timeout n
  | .closed n => s.closed n
  | .wake id => s.wake id x.time
  | .close => s.close
  | .store op => { s with api := { s.api with nodes := s.api.nodes.call x.time op } }

end

/-- A wait of the node that was accepted, is not answered and has its client. -/
def Open (s : AgentServer σ) (id : NodeId) (n : ℕ) : Prop :=
  s.listening.get? n = some id ∧ ¬ s.Answered n ∧ n ∉ s.gone

/-! ### The invariant -/

/-- A request is answered once; the waiters are the open waits, and their timers run. -/
structure Sound (s : AgentServer σ) : Prop where
  once : (s.answers.map Prod.fst).Nodup
  answered : ∀ n, s.Answered n → n ∈ s.known ∧ s.reading.get? n = none
  reading : ∀ n q, s.reading.get? n = some q → n ∈ s.known ∧ s.listening.get? n = none
  listening : ∀ n id, s.listening.get? n = some id → n ∈ s.known
  gone : ∀ n ∈ s.gone, ∃ id, s.listening.get? n = some id
  waiters : ∀ id n, s.waiters.get? id = some n ↔ s.Open id n
  timers : ∀ n id, s.timers.get? n = some id ↔ s.waiters.get? id = some n

theorem sound_start (api : AgentApi) (hub : σ) : (start api hub).Sound where
  once := List.nodup_nil
  answered n hn := absurd hn List.not_mem_nil
  reading n q hq := by cases hq
  listening n id hid := by cases hid
  gone n hn := absurd hn List.not_mem_nil
  waiters id n := iff_of_false (fun h => by cases h) fun h => by cases h.1
  timers n id := iff_of_false (fun h => by cases h) fun h => by cases h

variable {s : AgentServer σ}

private theorem Open.unique (hs : s.Sound) {id : NodeId} {m n : ℕ} (hm : s.Open id m) (hn : s.Open id n) : m = n := by
  rw [← hs.waiters] at hm hn
  exact Option.some.inj (hm.symm.trans hn)

private theorem answered_answer {n m : ℕ} {r : Reply} : (s.answer n r).Answered m ↔ s.Answered m ∨ m = n := by
  simp [Answered, answer]

private theorem nodup_answer (hs : (s.answers.map Prod.fst).Nodup) {n : ℕ} (hnot : ¬ s.Answered n) (r : Reply) :
    ((s.answers ++ [(n, r)]).map Prod.fst).Nodup := by
  rw [List.map_append, List.map_singleton, List.nodup_append]
  refine ⟨hs, List.nodup_singleton _, fun m hm k hk heq => ?_⟩
  rw [List.mem_singleton] at hk
  rw [heq, hk] at hm
  exact hnot hm

/-- A request that is on no list of the server is answered. -/
theorem Sound.answer (hs : s.Sound) {n : ℕ} (hknown : n ∈ s.known) (hnot : ¬ s.Answered n)
    (hreading : s.reading.get? n = none) (hlistening : s.listening.get? n = none) (r : Reply) :
    (s.answer n r).Sound where
  once := nodup_answer hs.once hnot r
  answered m hm := by
    rcases answered_answer.1 hm with hm | rfl
    · exact hs.answered m hm
    · exact ⟨hknown, hreading⟩
  reading := hs.reading
  listening := hs.listening
  gone := hs.gone
  waiters id m := by
    refine (hs.waiters id m).trans (and_congr_right fun hl => and_congr_left fun _ => not_congr ?_)
    rw [answered_answer, or_iff_left]
    rintro rfl
    rw [hlistening] at hl
    cases hl
  timers := hs.timers

/-- A wait that is answered, or whose client goes away, is open no more. -/
theorem Sound.forget (hs : s.Sound) {id : NodeId} {n : ℕ} (hid : s.listening.get? n = some id) {answers : List (ℕ × Reply)}
    {gone : List ℕ} (honce : (answers.map Prod.fst).Nodup)
    (hanswers : ∀ m, m ∈ answers.map Prod.fst → s.Answered m ∨ m = n) (hkept : ∀ m, s.Answered m → m ∈ answers.map Prod.fst)
    (hgone : ∀ m, m ∈ gone → m ∈ s.gone ∨ m = n) (hgoneKept : ∀ m ∈ s.gone, m ∈ gone)
    (hover : n ∈ answers.map Prod.fst ∨ n ∈ gone) :
    Sound { s.forget id n with answers := answers, gone := gone } := by
  have hopen : ∀ id' m, Open { s.forget id n with answers := answers, gone := gone } id' m ↔ s.Open id' m ∧ m ≠ n := by
    intro id' m
    constructor
    · rintro ⟨hl, ha, hg⟩
      refine ⟨⟨hl, fun h => ha (hkept m h), fun h => hg (hgoneKept m h)⟩, ?_⟩
      rintro rfl
      exact hover.elim ha hg
    · rintro ⟨⟨hl, ha, hg⟩, hne⟩
      exact ⟨hl, fun h => (hanswers m h).elim ha hne, fun h => (hgone m h).elim hg hne⟩
  have hwaiters : ∀ id' m, (s.forget id n).waiters.get? id' = some m ↔ s.Open id' m ∧ m ≠ n := by
    intro id' m
    rw [← hs.waiters]
    unfold AgentServer.forget
    dsimp only
    split
    · rename_i hw
      rw [OMap.get?_erase]
      split
      · rename_i heq
        rw [heq, hw]
        exact iff_of_false (fun h => by cases h) fun h => h.2 (Option.some.inj h.1).symm
      · rename_i hne
        refine ⟨fun h => ⟨h, ?_⟩, fun h => h.1⟩
        rintro rfl
        rw [hs.waiters] at h
        exact hne (Option.some.inj (h.1.symm.trans hid))
    · rename_i hw
      refine ⟨fun h => ⟨h, ?_⟩, fun h => h.1⟩
      rintro rfl
      have hl := ((hs.waiters id' m).1 h).1
      rw [hid] at hl
      exact hw (Option.some.inj hl ▸ h)
  refine ⟨honce, fun m hm => ?_, hs.reading, hs.listening, fun m hm => ?_, fun id' m => ?_, fun m id' => ?_⟩
  · rcases hanswers m hm with hm | rfl
    · exact hs.answered m hm
    · refine ⟨hs.listening m id hid, ?_⟩
      show s.reading.get? m = none
      cases hq : s.reading.get? m with
      | none => rfl
      | some q =>
        rw [(hs.reading m q hq).2] at hid
        cases hid
  · rcases hgone m hm with hm | rfl
    · exact hs.gone m hm
    · exact ⟨id, hid⟩
  · exact (hwaiters id' m).trans (hopen id' m).symm
  · show (s.timers.erase n).get? m = some id' ↔ (s.forget id n).waiters.get? id' = some m
    rw [hwaiters, ← hs.waiters, ← hs.timers, OMap.get?_erase]
    split
    · rename_i heq
      exact iff_of_false (fun h => by cases h) fun h => h.2 heq
    · rename_i hne
      exact (and_iff_left hne).symm

/-- The end of an open wait. -/
theorem finishWait_of_open (hs : s.Sound) {id : NodeId} {n : ℕ} (hw : s.waiters.get? id = some n) (r : Reply) :
    s.finishWait id n r = (s.forget id n).answer n r ∧ (s.finishWait id n r).waiters = s.waiters.erase id ∧
      (s.finishWait id n r).Sound := by
  obtain ⟨hid, hnot, -⟩ := (hs.waiters id n).1 hw
  have heq : s.finishWait id n r = (s.forget id n).answer n r := if_neg hnot
  refine ⟨heq, ?_, ?_⟩
  · rw [heq]
    exact if_pos hw
  · rw [heq]
    exact @Sound.forget _ s hs id n hid _ s.gone (nodup_answer hs.once hnot r) (fun m hm => answered_answer.1 hm) (fun m hm => answered_answer.2 (Or.inl hm))
      (fun m hm => Or.inl hm) (fun m hm => hm) (Or.inl (answered_answer.2 (Or.inr rfl)))

/-! ### The steps -/

variable {c : Crypto} {valid : List UInt8 → Bool} {maxBody : ℕ} {onSnapshot : σ → NodeId → List UInt8 → ℤ → σ}

/-- The invariant is about the requests, not about what they change. -/
theorem Sound.congr (hs : s.Sound) (api : AgentApi) (hub : σ) (lastWake : OMap NodeId ℤ) :
    Sound { s with api := api, hub := hub, lastWake := lastWake } :=
  ⟨hs.once, hs.answered, hs.reading, hs.listening, hs.gone, hs.waiters, hs.timers⟩

/-- A new request is known. -/
theorem Sound.enter (hs : s.Sound) (n : ℕ) : Sound { s with known := n :: s.known } where
  once := hs.once
  answered m hm := (hs.answered m hm).imp_left (List.mem_cons_of_mem n)
  reading m q hq := (hs.reading m q hq).imp_left (List.mem_cons_of_mem n)
  listening m id hid := List.mem_cons_of_mem n (hs.listening m id hid)
  gone := hs.gone
  waiters := hs.waiters
  timers := hs.timers

theorem Sound.head (hs : s.Sound) (n : ℕ) (h : Head) (t : ℤ) : (s.head maxBody n h t).Sound := by
  unfold AgentServer.head
  split
  · exact hs
  · rename_i hnew
    have hnot : ¬ s.Answered n := fun ha => hnew (hs.answered n ha).1
    have hreading : s.reading.get? n = none := by
      cases hq : s.reading.get? n with
      | none => rfl
      | some q => exact absurd (hs.reading n q hq).1 hnew
    have hlistening : s.listening.get? n = none := by
      cases hl : s.listening.get? n with
      | none => rfl
      | some id => exact absurd (hs.listening n id hl) hnew
    split
    · rename_i api q hr
      have hentered := hs.enter n
      refine ⟨hs.once, fun m hm => ?_, fun m q' hq' => ?_, hentered.listening, hs.gone, hs.waiters, hs.timers⟩
      · obtain ⟨hknown, hno⟩ := hentered.answered m hm
        have hm : s.Answered m := hm
        refine ⟨hknown, ?_⟩
        show (s.reading.set n q).get? m = none
        have hne : m ≠ n := by
          rintro rfl
          exact hnot hm
        rw [OMap.get?_set_of_ne _ hne]
        exact hno
      · have hq' : (s.reading.set n q).get? m = some q' := hq'
        rw [OMap.get?_set] at hq'
        split at hq'
        · rename_i heq
          rw [heq]
          exact ⟨List.mem_cons_self, hlistening⟩
        · exact hentered.reading m q' hq'
    · exact ((hs.enter n).congr _ s.hub s.lastWake).answer List.mem_cons_self hnot hreading hlistening _

/-- A request whose body is complete is read no more. -/
theorem Sound.read (hs : s.Sound) (n : ℕ) : Sound { s with reading := s.reading.erase n } where
  once := hs.once
  answered m hm := by
    refine ⟨(hs.answered m hm).1, ?_⟩
    dsimp only
    rw [OMap.get?_erase, (hs.answered m hm).2, ite_self]
  reading m q hq := by
    have hq : (s.reading.erase n).get? m = some q := hq
    rw [OMap.get?_erase] at hq
    split at hq
    · cases hq
    · exact hs.reading m q hq
  listening := hs.listening
  gone := hs.gone
  waiters := hs.waiters
  timers := hs.timers

/-- A wait opens when its node has none. -/
private theorem Sound.setOpen (hs : s.Sound) {id : NodeId} {n : ℕ} (hknown : n ∈ s.known) (hnot : ¬ s.Answered n)
    (hreading : s.reading.get? n = none) (hlistening : s.listening.get? n = none) (hfree : s.waiters.get? id = none) :
    Sound { s with
      timers := s.timers.set n id, waiters := s.waiters.set id n, listening := s.listening.set n id } where
  once := hs.once
  answered := hs.answered
  reading m q hq := by
    refine ⟨(hs.reading m q hq).1, ?_⟩
    dsimp only
    rw [OMap.get?_set_of_ne]
    · exact (hs.reading m q hq).2
    · rintro rfl
      have hq : s.reading.get? m = some q := hq
      rw [hreading] at hq
      cases hq
  listening m id' hid := by
    have hid : (s.listening.set n id).get? m = some id' := hid
    rw [OMap.get?_set] at hid
    split at hid
    · rename_i heq
      exact heq ▸ hknown
    · exact hs.listening m id' hid
  gone m hm := by
    obtain ⟨id', hid⟩ := hs.gone m hm
    dsimp only
    rw [OMap.get?_set]
    split
    · exact ⟨id, rfl⟩
    · exact ⟨id', hid⟩
  waiters id' m := by
    have hgone : n ∉ s.gone := by
      intro hg
      obtain ⟨id'', hid⟩ := hs.gone n hg
      rw [hlistening] at hid
      cases hid
    show (s.waiters.set id n).get? id' = some m ↔ (s.listening.set n id).get? m = some id' ∧ ¬ s.Answered m ∧ m ∉ s.gone
    rw [OMap.get?_set, OMap.get?_set]
    by_cases hid : id' = id
    · rw [if_pos hid]
      constructor
      · intro h
        obtain rfl := Option.some.inj h
        rw [if_pos rfl, hid]
        exact ⟨rfl, hnot, hgone⟩
      · rintro ⟨hl, ha, hg⟩
        split at hl
        · rename_i heq
          rw [heq]
        · rw [hid] at hl
          rw [(hs.waiters id m).2 ⟨hl, ha, hg⟩] at hfree
          cases hfree
    · rw [if_neg hid, hs.waiters]
      refine and_congr_left fun _ => ?_
      split
      · rename_i heq
        rw [heq, hlistening]
        exact iff_of_false (fun h => by cases h) fun h => hid (Option.some.inj h).symm
      · rfl
  timers m id' := by
    show (s.timers.set n id).get? m = some id' ↔ (s.waiters.set id n).get? id' = some m
    rw [OMap.get?_set, OMap.get?_set]
    by_cases hm : m = n
    · rw [if_pos hm]
      constructor
      · intro h
        rw [← Option.some.inj h, if_pos rfl, hm]
      · intro h
        split at h
        · rename_i hid
          rw [hid]
        · rw [hm, hs.waiters] at h
          rw [h.1] at hlistening
          cases hlistening
    · rw [if_neg hm, hs.timers]
      by_cases hid : id' = id
      · rw [if_pos hid, hid, hfree]
        exact iff_of_false (fun h => by cases h) fun h => hm (Option.some.inj h).symm
      · rw [if_neg hid]

/-- A wait opens; the one it replaces is answered. -/
private theorem openWait_spec (hs : s.Sound) (id : NodeId) {n : ℕ} (hknown : n ∈ s.known) (hnot : ¬ s.Answered n)
    (hreading : s.reading.get? n = none) (hlistening : s.listening.get? n = none) :
    (s.openWait id n).Sound ∧ (s.openWait id n).api = s.api ∧ (s.openWait id n).hub = s.hub ∧
      (s.openWait id n).answers = s.answers ++ ((s.waiters.get? id).map fun m => (m, Reply.nothing)).toList := by
  unfold openWait
  cases hw : s.waiters.get? id with
  | none =>
    exact ⟨hs.setOpen hknown hnot hreading hlistening hw, rfl, rfl, (List.append_nil _).symm⟩
  | some m =>
    obtain ⟨heq, hwaiters, hsound⟩ := finishWait_of_open hs hw .nothing
    have hne : n ≠ m := by
      rintro rfl
      rw [((hs.waiters id n).1 hw).1] at hlistening
      cases hlistening
    have hnot' : ¬ (s.finishWait id m .nothing).Answered n := by
      rw [heq, answered_answer]
      exact not_or.2 ⟨hnot, hne⟩
    have hset : ∀ w, w = s.finishWait id m .nothing → n ∈ w.known ∧ w.reading.get? n = none ∧
        w.listening.get? n = none ∧ w.waiters.get? id = none := by
      rintro w rfl
      rw [hwaiters, OMap.get?_erase_self, heq]
      exact ⟨hknown, hreading, hlistening, rfl⟩
    obtain ⟨hk, hr, hl, hfree⟩ := hset _ rfl
    refine ⟨hsound.setOpen hk hnot' hr hl hfree, ?_, ?_, ?_⟩
    · dsimp only
      rw [heq]
      rfl
    · dsimp only
      rw [heq]
      rfl
    · dsimp only
      rw [heq]
      rfl

variable (c valid maxBody onSnapshot) in
/-- A complete request: it is refused, its push is stored, or its wait opens. -/
private theorem body_spec (hs : s.Sound) {n : ℕ} {q : Pending} (hq : s.reading.get? n = some q)
    (b : Option (List UInt8)) (t : ℤ) :
    (s.body c valid maxBody onSnapshot n b t).Sound ∧
      ((∃ e, (s.api.complete c valid maxBody q b t).2 = .error e ∧ s.body c valid maxBody onSnapshot n b t =
          { s with api := (s.api.complete c valid maxBody q b t).1, reading := s.reading.erase n }.answer n (.refused e)) ∨
        ((s.api.complete c valid maxBody q b t).2 = .ok () ∧ q.endpoint = .push ∧
          (s.body c valid maxBody onSnapshot n b t).waiters = s.waiters ∧
          (s.body c valid maxBody onSnapshot n b t).answers = s.answers ++ [(n, .pushed)]) ∨
        ((s.api.complete c valid maxBody q b t).2 = .ok () ∧ q.endpoint = .wait ∧
          (s.body c valid maxBody onSnapshot n b t).waiters.get? q.node = some n ∧
          (∀ id, id ≠ q.node → (s.body c valid maxBody onSnapshot n b t).waiters.get? id = s.waiters.get? id) ∧
          (s.body c valid maxBody onSnapshot n b t).answers =
            s.answers ++ ((s.waiters.get? q.node).map fun m => (m, Reply.nothing)).toList)) := by
  obtain ⟨hknown, hlistening⟩ := hs.reading n q hq
  have hnot : ¬ s.Answered n := by
    intro ha
    rw [(hs.answered n ha).2] at hq
    cases hq
  have hread := hs.read n
  have hgone : (s.reading.erase n).get? n = none := OMap.get?_erase_self _ n
  unfold body
  rw [hq]
  dsimp only
  generalize s.api.complete c valid maxBody q b t = r
  obtain ⟨api, _ | ⟨⟨⟩⟩⟩ := r
  · exact ⟨(hread.congr api s.hub s.lastWake).answer hknown hnot hgone hlistening _, Or.inl ⟨_, rfl, rfl⟩⟩
  · dsimp only
    cases hend : q.endpoint with
    | push =>
      exact ⟨(hread.congr api _ s.lastWake).answer hknown hnot hgone hlistening _, Or.inr (Or.inl ⟨rfl, rfl, rfl, rfl⟩)⟩
    | wait =>
      obtain ⟨hsound, -, -, hanswers⟩ :=
        openWait_spec (hread.congr api s.hub s.lastWake) q.node hknown hnot hgone hlistening
      refine ⟨hsound, Or.inr (Or.inr ⟨rfl, rfl, ?_, fun id hid => ?_, hanswers⟩)⟩
      · exact OMap.get?_set_self _ _ _
      · unfold openWait
        dsimp only
        rw [OMap.get?_set_of_ne _ hid]
        cases hw : s.waiters.get? q.node with
        | none => rfl
        | some m =>
          obtain ⟨-, hwaiters, -⟩ := finishWait_of_open (hread.congr api s.hub s.lastWake) hw .nothing
          rw [hwaiters, OMap.get?_erase_of_ne _ hid]

theorem Sound.timeout (hs : s.Sound) (n : ℕ) : (s.timeout n).Sound := by
  unfold AgentServer.timeout
  split
  · rename_i id hid
    exact (finishWait_of_open hs ((hs.timers n id).1 hid) .nothing).2.2
  · exact hs

theorem Sound.closed (hs : s.Sound) (n : ℕ) : (s.closed n).Sound := by
  unfold AgentServer.closed
  split
  · rename_i id hid
    exact @Sound.forget _ s hs id n hid s.answers (n :: s.gone) hs.once (fun m hm => Or.inl hm) (fun m hm => hm)
      (fun m hm => (List.mem_cons.1 hm).symm) (fun m hm => List.mem_cons_of_mem n hm) (Or.inr List.mem_cons_self)
  · exact hs

theorem Sound.wake (hs : s.Sound) (id : NodeId) (t : ℤ) : (s.wake id t).Sound := by
  unfold AgentServer.wake
  split
  · rename_i n hn
    exact (finishWait_of_open (hs.congr s.api s.hub (s.lastWake.set id t)) hn .sample).2.2
  · exact hs

/-- The ends of some open waits. -/
private theorem sound_finishWaits {es : List (NodeId × ℕ)} (hnodup : (es.map Prod.fst).Nodup) (hs : s.Sound)
    (hes : ∀ e ∈ es, s.waiters.get? e.1 = some e.2) :
    (es.foldl (fun s e => s.finishWait e.1 e.2 .nothing) s).Sound := by
  induction es generalizing s with
  | nil => exact hs
  | cons e es ih =>
    rw [List.map_cons, List.nodup_cons] at hnodup
    obtain ⟨-, hwaiters, hsound⟩ := finishWait_of_open hs (hes e List.mem_cons_self) .nothing
    refine ih hnodup.2 hsound fun e' he' => ?_
    have hne : e'.1 ≠ e.1 := by
      intro heq
      exact hnodup.1 (heq ▸ List.mem_map_of_mem he')
    rw [hwaiters, OMap.get?_erase_of_ne _ hne]
    exact hes e' (List.mem_cons_of_mem e he')

theorem Sound.step (hs : s.Sound) (x : Step) : (s.step c valid maxBody onSnapshot x).Sound := by
  obtain ⟨t, op⟩ := x
  cases op with
  | head n h => exact hs.head n h t
  | body n b =>
    cases hq : s.reading.get? n with
    | none =>
      show (s.body c valid maxBody onSnapshot n b t).Sound
      rw [body, hq]
      exact hs
    | some q => exact (body_spec c valid maxBody onSnapshot hs hq b t).1
  | timeout n => exact hs.timeout n
  | closed n => exact hs.closed n
  | wake id => exact hs.wake id t
  | close => exact sound_finishWaits s.waiters.nodup hs fun e he => OMap.mem_entries_iff.1 he
  | store op => exact hs.congr _ s.hub s.lastWake

/-- Nothing but the counted failures, the memory of the node store and the requests on their way is other than before. -/
structure Unchanged (s s' : AgentServer σ) : Prop where
  lastTs : s'.api.lastTs = s.api.lastTs
  replayFile : s'.api.replayFile = s.api.replayFile
  lastPush : s'.api.lastPush = s.api.lastPush
  hub : s'.hub = s.hub
  waiters : s'.waiters = s.waiters

/-- A step that only ends waits answers with success only. -/
private theorem success_finishWait {id : NodeId} {m : ℕ} {reply : Reply} (hreply : reply.success = true) {n : ℕ}
    {r : Reply}
    (hr : (n, r) ∈ (s.finishWait id m reply).answers) (hno : r.success = false) : (n, r) ∈ s.answers := by
  unfold finishWait at hr
  dsimp only at hr
  split at hr
  · exact hr
  · rcases List.mem_append.1 hr with hr | hr
    · exact hr
    · obtain ⟨-, rfl⟩ := Prod.mk.inj (List.mem_singleton.1 hr)
      rw [hreply] at hno
      cases hno

private theorem success_finishWaits (es : List (NodeId × ℕ)) {n : ℕ} {r : Reply}
    (hr : (n, r) ∈ (es.foldl (fun s e => s.finishWait e.1 e.2 .nothing) s).answers) (hno : r.success = false) :
    (n, r) ∈ s.answers := by
  induction es generalizing s with
  | nil => exact hr
  | cons e es ih => exact success_finishWait rfl (ih hr) hno

/-- The head of a request changes nothing else, whatever comes of it. -/
private theorem unchanged_head (s : AgentServer σ) (n : ℕ) (h : Head) (t : ℤ) : Unchanged s (s.head maxBody n h t) := by
  obtain ⟨hsame, -, -⟩ := AgentApi.checkHead_spec maxBody s.api h t
  unfold head
  split
  · exact ⟨rfl, rfl, rfl, rfl, rfl⟩
  · generalize s.api.checkHead maxBody h t = result at hsame ⊢
    obtain ⟨api, e | q⟩ := result
    · exact ⟨hsame.lastTs, hsame.replayFile, hsame.lastPush, rfl, rfl⟩
    · exact ⟨hsame.lastTs, hsame.replayFile, hsame.lastPush, rfl, rfl⟩

variable (c valid maxBody onSnapshot) in
/-- A step that answers with anything but success changes nothing else. -/
private theorem unchanged_of_refused (hs : s.Sound) (x : Step) {n : ℕ} {r : Reply} (hno : r.success = false)
    (hr : (n, r) ∈ (s.step c valid maxBody onSnapshot x).answers) (hnew : (n, r) ∉ s.answers) :
    Unchanged s (s.step c valid maxBody onSnapshot x) := by
  obtain ⟨t, op⟩ := x
  cases op with
  | head m h => exact unchanged_head s m h t
  | body m b =>
    have hstep : s.step c valid maxBody onSnapshot ⟨t, .body m b⟩ = s.body c valid maxBody onSnapshot m b t := rfl
    rw [hstep] at hr ⊢
    cases hq : s.reading.get? m with
    | none =>
      rw [body, hq] at hr
      exact absurd hr hnew
    | some q =>
      rcases (body_spec c valid maxBody onSnapshot hs hq b t).2 with ⟨e, he, hbody⟩ | ⟨-, -, -, hanswers⟩ |
        ⟨-, -, -, -, hanswers⟩
      · rcases AgentApi.complete_spec c valid maxBody s.api q b t with ⟨b', hb', hok, -⟩ | ⟨-, hsame, -⟩
        · rw [AgentApi.complete, hb'] at he
          dsimp only at he
          rw [hok] at he
          cases he
        · rw [hbody]
          exact ⟨hsame.lastTs, hsame.replayFile, hsame.lastPush, rfl, rfl⟩
      · rw [hanswers] at hr
        rcases List.mem_append.1 hr with hr | hr
        · exact absurd hr hnew
        · obtain ⟨-, rfl⟩ := Prod.mk.inj (List.mem_singleton.1 hr)
          cases hno
      · rw [hanswers] at hr
        rcases List.mem_append.1 hr with hr | hr
        · exact absurd hr hnew
        · rw [Option.mem_toList] at hr
          obtain ⟨k, -, hk⟩ := Option.map_eq_some_iff.1 hr
          obtain ⟨-, rfl⟩ := Prod.mk.inj hk
          cases hno
  | timeout m =>
    have hr : (n, r) ∈ (s.timeout m).answers := hr
    unfold timeout at hr
    split at hr
    · exact absurd (success_finishWait rfl hr hno) hnew
    · exact absurd hr hnew
  | closed m =>
    have hr : (n, r) ∈ (s.closed m).answers := hr
    unfold closed at hr
    split at hr <;> exact absurd hr hnew
  | wake id =>
    have hr : (n, r) ∈ (s.wake id t).answers := hr
    unfold wake at hr
    split at hr
    · exact absurd (success_finishWait rfl hr hno) hnew
    · exact absurd hr hnew
  | close => exact absurd (success_finishWaits _ hr hno) hnew
  | store op => exact absurd hr hnew

/-- Ending a wait opens none. -/
theorem get?_forget {id id' : NodeId} {k j : ℕ} (h : (s.forget id' k).waiters.get? id = some j) :
    s.waiters.get? id = some j := by
  unfold forget at h
  dsimp only at h
  split at h
  · rw [OMap.get?_erase] at h
    split at h
    · cases h
    · exact h
  · exact h

private theorem get?_finishWait {id id' : NodeId} {k j : ℕ} {r : Reply}
    (h : (s.finishWait id' k r).waiters.get? id = some j) : s.waiters.get? id = some j := by
  unfold finishWait at h
  dsimp only at h
  split at h <;> exact get?_forget h

private theorem get?_finishWaits (es : List (NodeId × ℕ)) {id : NodeId} {j : ℕ}
    (h : (es.foldl (fun s e => s.finishWait e.1 e.2 .nothing) s).waiters.get? id = some j) :
    s.waiters.get? id = some j := by
  induction es generalizing s with
  | nil => exact h
  | cons e es ih => exact get?_finishWait (ih h)

variable (c valid maxBody onSnapshot) in
/-- A wait that another one replaces is answered. -/
theorem replaced (hs : s.Sound) (x : Step) {id : NodeId} {m n : ℕ} (hm : s.Open id m)
    (hn : (s.step c valid maxBody onSnapshot x).Open id n) (hne : n ≠ m) :
    (m, .nothing) ∈ (s.step c valid maxBody onSnapshot x).answers := by
  have hw := (hs.waiters id m).2 hm
  have hw' := (hs.step x).waiters id n |>.2 hn
  have hkept : ∀ {w : AgentServer σ}, (∀ k, w.waiters.get? id = some k → s.waiters.get? id = some k) →
      w.waiters.get? id ≠ some n := by
    intro w h hk
    rw [h n hk] at hw
    exact hne (Option.some.inj hw)
  obtain ⟨t, op⟩ := x
  cases op with
  | head k h =>
    refine absurd hw' (hkept fun j hj => ?_)
    have hj : (s.head maxBody k h t).waiters.get? id = some j := hj
    unfold head at hj
    split at hj
    · exact hj
    · split at hj <;> exact hj
  | body k b =>
    cases hq : s.reading.get? k with
    | none =>
      refine absurd hw' (hkept fun j hj => ?_)
      have hj : (s.body c valid maxBody onSnapshot k b t).waiters.get? id = some j := hj
      rw [body, hq] at hj
      exact hj
    | some q =>
      rcases (body_spec c valid maxBody onSnapshot hs hq b t).2 with ⟨e, -, hbody⟩ | ⟨-, -, hwaiters, -⟩ |
        ⟨-, -, hown, hother, hanswers⟩
      · refine absurd hw' (hkept fun j hj => ?_)
        have hj : (s.body c valid maxBody onSnapshot k b t).waiters.get? id = some j := hj
        rw [hbody] at hj
        exact hj
      · refine absurd hw' (hkept fun j hj => ?_)
        have hj : (s.body c valid maxBody onSnapshot k b t).waiters.get? id = some j := hj
        rw [hwaiters] at hj
        exact hj
      · by_cases hid : id = q.node
        · show (m, .nothing) ∈ (s.body c valid maxBody onSnapshot k b t).answers
          rw [hanswers, ← hid, hw]
          exact List.mem_append_right _ List.mem_cons_self
        · refine absurd hw' (hkept fun j hj => ?_)
          have hj : (s.body c valid maxBody onSnapshot k b t).waiters.get? id = some j := hj
          rw [hother id hid] at hj
          exact hj
  | timeout k =>
    refine absurd hw' (hkept fun j hj => ?_)
    have hj : (s.timeout k).waiters.get? id = some j := hj
    unfold timeout at hj
    split at hj
    · exact get?_finishWait hj
    · exact hj
  | closed k =>
    refine absurd hw' (hkept fun j hj => ?_)
    have hj : (s.closed k).waiters.get? id = some j := hj
    unfold closed at hj
    split at hj
    · exact get?_forget hj
    · exact hj
  | wake id' =>
    refine absurd hw' (hkept fun j hj => ?_)
    have hj : (s.wake id' t).waiters.get? id = some j := hj
    unfold wake at hj
    split at hj
    · exact (get?_finishWait hj : _)
    · exact hj
  | close => exact absurd hw' (hkept fun j hj => get?_finishWaits _ hj)
  | store op => exact absurd hw' (hkept fun j hj => hj)

/-- A wake answers the open wait, and no other. -/
private theorem answers_wake (hs : s.Sound) (id : NodeId) (t : ℤ) :
    (∀ m, s.Open id m → (s.wake id t).answers = s.answers ++ [(m, .sample)] ∧ ∀ k, ¬ (s.wake id t).Open id k) ∧
      ((∀ m, ¬ s.Open id m) → s.wake id t = s) := by
  constructor
  · intro m hm
    have hw := (hs.waiters id m).2 hm
    obtain ⟨heq, hwaiters, hsound⟩ :=
      finishWait_of_open (hs.congr s.api s.hub (s.lastWake.set id t)) hw .sample
    have hwake : s.wake id t = { s with lastWake := s.lastWake.set id t }.finishWait id m .sample := by
      rw [wake, hw]
    rw [hwake]
    refine ⟨by rw [heq]; rfl, fun k hk => ?_⟩
    rw [← hsound.waiters, hwaiters, OMap.get?_erase_self] at hk
    cases hk
  · intro hno
    cases hw : s.waiters.get? id with
    | none => rw [wake, hw]
    | some m => exact absurd ((hs.waiters id m).1 hw) (hno m)

/-- **One answer.**  For every order of heads, bodies, timers, closed responses, wakes, shutdowns and changes of the node
store: each request is answered once at most and each node has one open wait at most.  In each step, a wait that another
one of its node replaces is answered 204, a wake answers the open wait of its node and nothing else, and a head, as
every step that answers anything but success, leaves the timestamps, the times of the pushes, what the snapshots went to
and the open waits as they were. -/
theorem one_answer (c : Crypto) (valid : List UInt8 → Bool) (maxBody : ℕ)
    (onSnapshot : σ → NodeId → List UInt8 → ℤ → σ) (api : AgentApi) (hub : σ) (steps : List Step) :
    let s := Runs.run (step c valid maxBody onSnapshot) (start api hub) steps
    (s.answers.map Prod.fst).Nodup ∧ (∀ id m n, s.Open id m → s.Open id n → m = n) ∧
      (∀ x id m n, s.Open id m → (s.step c valid maxBody onSnapshot x).Open id n → n ≠ m →
        (m, .nothing) ∈ (s.step c valid maxBody onSnapshot x).answers) ∧
      (∀ t id,
        (∀ m, s.Open id m → (s.step c valid maxBody onSnapshot ⟨t, .wake id⟩).answers = s.answers ++ [(m, .sample)] ∧
          ∀ k, ¬ (s.step c valid maxBody onSnapshot ⟨t, .wake id⟩).Open id k) ∧
        ((∀ m, ¬ s.Open id m) → s.step c valid maxBody onSnapshot ⟨t, .wake id⟩ = s)) ∧
      (∀ t n h, Unchanged s (s.step c valid maxBody onSnapshot ⟨t, .head n h⟩)) ∧
      ∀ x n r, (n, r) ∈ (s.step c valid maxBody onSnapshot x).answers → (n, r) ∉ s.answers → r.success = false →
        Unchanged s (s.step c valid maxBody onSnapshot x) := by
  intro s
  have hs : s.Sound := Runs.invariant (fun w x hw => hw.step x) (sound_start api hub) steps
  refine ⟨hs.once, fun id m n hm hn => hm.unique hs hn, fun x id m n hm hn hne => ?_, fun t id => answers_wake hs id t,
    fun t n h => unchanged_head s n h t, fun x n r hr hnew hno => ?_⟩
  · exact replaced c valid maxBody onSnapshot hs x hm hn hne
  · exact unchanged_of_refused c valid maxBody onSnapshot hs x hno hr hnew

end AgentServer

end Servitals
