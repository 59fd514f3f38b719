import Servitals.AgentApi
import Servitals.Lib.Runs

/-!
# Replays

The timestamp of a request is checked when its head arrives and kept when its body is complete.  A request is overtaken
when another of its node and endpoint, with the same timestamp or a later one, is accepted between the two.  The
timestamps accepted for a node and endpoint increase over a run, restarts included, exactly when no request is
accepted that was overtaken (`increasing_iff_onTime`); two overlapping copies of one request are both accepted.
-/

namespace Servitals

/-- What a timestamp is kept for. -/
def Accepted.key (x : Accepted) : NodeId × Endpoint := (x.node, x.endpoint)

def Pending.key (q : Pending) : NodeId × Endpoint := (q.node, q.endpoint)

/-- The entry of a waiting request when it is accepted. -/
def Pending.toAccepted (q : Pending) : Accepted := ⟨q.endpoint, q.node, q.ts⟩

/-- The timestamps accepted for one node and endpoint increase. -/
def Increasing (l : List Accepted) : Prop := l.Pairwise fun x y => x.key = y.key → x.ts < y.ts

instance (l : List Accepted) : Decidable (Increasing l) :=
  inferInstanceAs (Decidable (l.Pairwise fun x y => x.key = y.key → x.ts < y.ts))

namespace AgentApi

variable (c : Crypto) (valid : List UInt8 → Bool) (maxBody : ℕ)

/-- A request of the same node and endpoint with the same timestamp or a later one was accepted since the head of the
request was checked. -/
def Overtaken (a : AgentApi) (q : Pending) : Prop := ∃ x ∈ a.accepted.drop q.mark, x.key = q.key ∧ q.ts ≤ x.ts

instance (a : AgentApi) (q : Pending) : Decidable (a.Overtaken q) :=
  inferInstanceAs (Decidable (∃ x ∈ a.accepted.drop q.mark, x.key = q.key ∧ q.ts ≤ x.ts))

/-- A body that completes a request with a right signature, rate and snapshot completes one that was not overtaken. -/
def onTime (a : AgentApi) (s : ApiStep) : Bool :=
  match s.op with
  | .body i body => (a.pending[i]?).all fun q => (readLimited maxBody body).all fun b =>
      !(a.checkBody c valid q b).isOk || !decide (a.Overtaken q)
  | _ => true

variable {c : Crypto} {valid : List UInt8 → Bool} {maxBody : ℕ}

/-! ### The invariant -/

/-- The kept timestamps bound the accepted ones, in memory and in the file, and a waiting request is later than those
accepted before its head was checked. -/
structure Kept (a : AgentApi) : Prop where
  increasing : Increasing a.accepted
  bound : ∀ x ∈ a.accepted, ∃ v, a.lastTs.get? x.key = some v ∧ x.ts ≤ v
  file : a.replayFile = a.lastTs
  marks : ∀ q ∈ a.pending, q.mark ≤ a.accepted.length ∧ ∀ x ∈ a.accepted.take q.mark, x.key = q.key → x.ts < q.ts

theorem Kept.congr {a a' : AgentApi} (h : a.Kept) (hs : a.Same a') : a'.Kept := by
  obtain ⟨hts, hfile, -, hpending, haccepted⟩ := hs
  refine ⟨?_, ?_, ?_, ?_⟩
  · rw [haccepted]
    exact h.increasing
  · rw [haccepted, hts]
    exact h.bound
  · rw [hfile, hts]
    exact h.file
  · rw [hpending, haccepted]
    exact h.marks

private theorem Kept.admitted {a : AgentApi} (h : a.Kept) {q : Pending} {t : ℤ} (hq : a.Admitted t q) :
    Kept { a with pending := a.pending ++ [q] } := by
  refine ⟨h.increasing, h.bound, h.file, fun q' hq' => ?_⟩
  rcases List.mem_append.1 hq' with hq' | hq'
  · exact h.marks q' hq'
  · rw [List.mem_singleton.1 hq']
    refine ⟨hq.mark.le, fun x hx hkey => ?_⟩
    obtain ⟨v, hv, hxv⟩ := h.bound x (List.mem_of_mem_take hx)
    have hlater := hq.later
    rw [show (q.node, q.endpoint) = x.key from hkey.symm, hv, Option.getD_some] at hlater
    omega

theorem Kept.accept {a : AgentApi} (h : a.Kept) {q : Pending} (hmark : ∀ x ∈ a.accepted.take q.mark, x.key = q.key →
    x.ts < q.ts) (hq : ¬ a.Overtaken q) : (a.accept q).Kept := by
  have hlater : ∀ x ∈ a.accepted, x.key = q.key → x.ts < q.ts := by
    intro x hx hkey
    rw [← List.take_append_drop q.mark a.accepted] at hx
    rcases List.mem_append.1 hx with hx | hx
    · exact hmark x hx hkey
    · by_contra hts
      exact hq ⟨x, hx, hkey, not_lt.1 hts⟩
  have haccepted : (a.accept q).accepted = a.accepted ++ [q.toAccepted] := rfl
  have hts : (a.accept q).lastTs = a.lastTs.set q.key q.ts := rfl
  refine ⟨?_, fun x hx => ?_, rfl, fun q' hq' => ?_⟩
  · rw [haccepted]
    refine List.pairwise_append.2 ⟨h.increasing, List.pairwise_singleton _ _, fun x hx y hy hkey => ?_⟩
    rw [List.mem_singleton.1 hy] at hkey ⊢
    exact hlater x hx hkey
  · rw [hts, OMap.get?_set]
    rw [haccepted, List.mem_append] at hx
    rcases hx with hx | hx
    · by_cases hkey : x.key = q.key
      · rw [if_pos hkey]
        exact ⟨q.ts, rfl, (hlater x hx hkey).le⟩
      · rw [if_neg hkey]
        exact h.bound x hx
    · rw [List.mem_singleton.1 hx]
      exact ⟨q.ts, if_pos rfl, le_refl q.ts⟩
  · obtain ⟨hle, hmarks⟩ := h.marks q' hq'
    rw [haccepted, List.take_append_of_le_length hle]
    exact ⟨by rw [List.length_append]; omega, hmarks⟩

/-- A step that is on time keeps the invariant. -/
theorem Kept.step {a : AgentApi} (h : a.Kept) {s : ApiStep} (hs : a.onTime c valid maxBody s = true) :
    (a.step c valid maxBody s).Kept := by
  obtain ⟨t, op⟩ := s
  cases op with
  | head hd =>
    obtain ⟨hsame, -, hok⟩ := checkHead_spec maxBody a hd t
    rcases step_head c valid maxBody a hd t with ⟨q, hq, hstep⟩ | ⟨-, hstep⟩
    · obtain ⟨hadmitted, -⟩ := hok q hq
      rw [hstep]
      refine (h.congr hsame).admitted ⟨?_, hadmitted.hubMs, ?_⟩
      · rw [hsame.lastTs]
        exact hadmitted.later
      · rw [hsame.accepted]
        exact hadmitted.mark
    · rw [hstep]
      exact h.congr hsame
  | body i body =>
    cases hq : a.pending[i]? with
    | none =>
      rw [step_body_none hq]
      exact h
    | some q =>
      have hkept : Kept { a with pending := a.pending.eraseIdx i } :=
        ⟨h.increasing, h.bound, h.file, fun q' hq' => h.marks q' (List.mem_of_mem_eraseIdx hq')⟩
      rw [step_body hq]
      rcases complete_spec c valid maxBody { a with pending := a.pending.eraseIdx i } q
        body t with ⟨b, hb, hok, haccept⟩ | ⟨-, hsame, -⟩
      · rw [haccept]
        have honTime : (!(a.checkBody c valid q b).isOk || !decide (a.Overtaken q)) = true := by
          simpa [onTime, hq, hb] using hs
        have hbody : a.checkBody c valid q b = .ok () := hok
        rw [hbody] at honTime
        have hnot : ¬ a.Overtaken q := by simpa [Except.isOk, Except.toBool] using honTime
        exact hkept.accept (h.marks q (List.mem_of_getElem? hq)).2 hnot
      · exact hkept.congr hsame
  | store op => exact ⟨h.increasing, h.bound, h.file, h.marks⟩
  | restart hostname id secret =>
    refine ⟨h.increasing, ?_, rfl, fun q hq => (by cases hq)⟩
    rw [show (a.step c valid maxBody ⟨t, .restart hostname id secret⟩).lastTs = a.lastTs from h.file]
    exact h.bound

/-! ### The other direction -/

variable (c valid maxBody) in
/-- A step accepts one request at most, at the end. -/
private theorem accepted_step (a : AgentApi) (s : ApiStep) :
    ∃ l, (a.step c valid maxBody s).accepted = a.accepted ++ l := by
  obtain ⟨t, op⟩ := s
  cases op with
  | head hd =>
    obtain ⟨hsame, -, -⟩ := checkHead_spec maxBody a hd t
    refine ⟨[], ?_⟩
    rw [List.append_nil, ← hsame.accepted]
    rcases step_head c valid maxBody a hd t with ⟨q, -, hstep⟩ | ⟨-, hstep⟩
    · rw [hstep]
    · rw [hstep]
  | body i body =>
    cases hq : a.pending[i]? with
    | none => exact ⟨[], by rw [step_body_none hq, List.append_nil]⟩
    | some q =>
      rw [step_body hq]
      rcases complete_spec c valid maxBody { a with pending := a.pending.eraseIdx i } q
        body t with ⟨b, -, -, haccept⟩ | ⟨-, hsame, -⟩
      · rw [haccept]
        exact ⟨_, rfl⟩
      · exact ⟨[], by rw [hsame.accepted, List.append_nil]⟩
  | store op => exact ⟨[], (List.append_nil _).symm⟩
  | restart hostname id secret => exact ⟨[], (List.append_nil _).symm⟩

variable (c valid maxBody) in
private theorem accepted_run (a : AgentApi) (steps : List ApiStep) :
    ∃ l, (Runs.run (step c valid maxBody) a steps).accepted = a.accepted ++ l := by
  induction steps generalizing a with
  | nil => exact ⟨[], (List.append_nil _).symm⟩
  | cons s steps ih =>
    obtain ⟨l, hl⟩ := accepted_step c valid maxBody a s
    obtain ⟨l', hl'⟩ := ih (a.step c valid maxBody s)
    exact ⟨l ++ l', by rw [Runs.run_cons, hl', hl, List.append_assoc]⟩

/-- A step after which the timestamps still increase is on time. -/
private theorem onTime_of_increasing {a : AgentApi} {s : ApiStep} (h : Increasing (a.step c valid maxBody s).accepted) :
    a.onTime c valid maxBody s = true := by
  obtain ⟨t, op⟩ := s
  cases op with
  | body i body =>
    simp only [onTime, Option.all_eq_true]
    intro q hq b hb
    by_contra hnot
    simp only [Bool.not_eq_true, Bool.or_eq_false_iff, Bool.not_eq_false', decide_eq_true_eq] at hnot
    obtain ⟨hok, x, hx, hkey, hts⟩ := hnot
    have hbody : AgentApi.checkBody c valid { a with pending := a.pending.eraseIdx i } q b = .ok () := by
      cases hc : a.checkBody c valid q b with
      | ok u => exact hc
      | error e => rw [hc] at hok; cases hok
    rcases complete_spec c valid maxBody { a with pending := a.pending.eraseIdx i } q
      body t with ⟨b', -, -, haccept⟩ | ⟨hno, -⟩
    · have haccepted : (a.step c valid maxBody ⟨t, .body i body⟩).accepted = a.accepted ++ [q.toAccepted] := by
        rw [step_body hq]
        exact congrArg accepted haccept
      rw [haccepted] at h
      have hlt := (List.pairwise_append.1 h).2.2 x (List.mem_of_mem_drop hx) q.toAccepted (List.mem_singleton.2 rfl)
        hkey
      exact absurd hlt (not_lt.2 hts)
    · exact hno b hb hbody
  | head => rfl
  | store => rfl
  | restart => rfl

theorem Kept.start (hostname : JsString) (id : NodeId) (secret : Secret) (t : ℤ) :
    (start none .empty [] hostname id secret t).Kept :=
  ⟨List.Pairwise.nil, fun _ hx => absurd hx List.not_mem_nil, rfl, fun _ hq => absurd hq List.not_mem_nil⟩

/-- Over every run of a hub, its restarts included, the timestamps accepted for each node and endpoint increase exactly
when each request that would be accepted was not overtaken between its head and its body. -/
theorem increasing_iff_onTime (c : Crypto) (valid : List UInt8 → Bool) (maxBody : ℕ) (hostname : JsString)
    (id : NodeId) (secret : Secret) (t : ℤ) (steps : List ApiStep) :
    let a := start none .empty [] hostname id secret t
    Increasing (Runs.run (step c valid maxBody) a steps).accepted ↔
      Runs.Meets (step c valid maxBody) (fun a s => a.onTime c valid maxBody s = true) a steps := by
  intro a
  constructor
  · intro h
    generalize a = a at h ⊢
    induction steps generalizing a with
    | nil => trivial
    | cons s steps ih =>
      refine ⟨onTime_of_increasing ?_, ih _ h⟩
      obtain ⟨l, hl⟩ := accepted_run c valid maxBody (a.step c valid maxBody s) steps
      rw [Runs.run_cons, hl] at h
      exact (List.pairwise_append.1 h).1
  · intro h
    exact (h.invariant (I := Kept) (fun _ _ hk hs => hk.step hs) (Kept.start hostname id secret t)).increasing

/-! ### Two copies of one request -/

/-- The local node's secret. -/
def copiedSecret : Secret := ⟨js "0123456789abcdef0123456789abcdef0123456789abcdef0123456789abcdef", by decide⟩

/-- A wait request of the local node at 1700000000000 as its agent signs it. -/
def copied : Head where
  ip := js "192.168.0.7"
  method := js "GET"
  url := js "/api/v1/agent/wait"
  proto := some (js "1")
  node := some (js "abcdefghijkl")
  ts := some (js "1700000000000")
  sig := some (js "c40c4689552bee68538c5b545b8353f5906ac091fa255cf08586681ad08a27b1")
  contentLength := none

/-- SHA-256 and HMAC-SHA256 at what the hub hashes of the request. -/
def copiedCrypto : Crypto where
  sha256 data := if data = [] then
      ⟨fromHex (js "e3b0c44298fc1c149afbf4c8996fb92427ae41e4649b934ca495991b7852b855"), by decide⟩
    else ⟨List.replicate 32 0, rfl⟩
  hmac key message :=
    if key = fromHex copiedSecret.1 ∧ message = js "GET\n/api/v1/agent/wait\n1700000000000\n" ++
        js "e3b0c44298fc1c149afbf4c8996fb92427ae41e4649b934ca495991b7852b855" then
      ⟨fromHex (js "c40c4689552bee68538c5b545b8353f5906ac091fa255cf08586681ad08a27b1"), by decide⟩
    else ⟨List.replicate 32 0, rfl⟩

/-- The heads of two copies arrive before either body is complete: both are accepted. -/
theorem overlapping_copies_accepted :
    ¬ ∀ (c : Crypto) (valid : List UInt8 → Bool) (maxBody : ℕ) (hostname : JsString) (id : NodeId) (secret : Secret)
      (t : ℤ) (steps : List ApiStep),
      Increasing (Runs.run (step c valid maxBody) (start none .empty [] hostname id secret t) steps).accepted := by
  intro h
  have := h copiedCrypto (fun _ => false) 262144 (js "nas") ⟨js "abcdefghijkl", by decide⟩ copiedSecret 1699999999000
    [⟨1700000000100, .head copied⟩, ⟨1700000000200, .head copied⟩, ⟨1700000000300, .body 0 (some [])⟩,
      ⟨1700000000400, .body 0 (some [])⟩]
  revert this
  decide +kernel

end AgentApi

end Servitals
