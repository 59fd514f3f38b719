import Servitals.AgentApi
import Servitals.Lib.Runs

/-!
# Which secret a request is accepted with

A waiting request holds the record its head found, and the store changes that record in place: when the body
completes, the signature is checked against the secrets the record has then.  The invariant (`Attached`): the store
never reads its file again while it runs, so the record a request holds is the one the table has for its node.

So a request is accepted with a secret of 64 digits that its node has when its body completes
(`accepted_with_a_secret`), and never after its node was revoked.
-/

namespace Servitals

namespace AgentApi

variable {c : Crypto} {valid : List UInt8 → Bool} {maxBody : ℕ}

/-- The secret is one the node may sign with at `hubMs`: its own, or its old one while its time is not over. -/
def ValidFor (n : NodeRec) (hubMs : ℤ) (secret : JsString) : Prop :=
  n.revoked = false ∧ isHex64 secret = true ∧
    (secret = n.secret ∨ n.oldSecret = some secret ∧ ∃ u, n.oldUntil = some u ∧ hubMs < u)

/-- The candidates of a record are the secrets it may sign with, and for a revoked one the empty string. -/
private theorem mem_candidates {n : NodeRec} {hubMs : ℤ} {s : JsString} (h : s ∈ candidates n hubMs) (hs : s ≠ []) :
    ValidFor n hubMs s := by
  unfold candidates at h
  by_cases hr : n.revoked = true
  · obtain ⟨hsecret, hold⟩ := NodeRec.eq_of_revoked hr
    rw [hold, hsecret] at h
    exact absurd (List.mem_singleton.1 h) hs
  · have hr : n.revoked = false := by simpa using hr
    obtain ⟨hsecret, hold⟩ := NodeRec.isHex64_of_not_revoked hr
    rcases List.mem_cons.1 h with rfl | h
    · exact ⟨hr, hsecret, Or.inl rfl⟩
    · cases ho : n.oldSecret with
      | none => rw [ho] at h; cases h
      | some old =>
        rw [ho] at h
        dsimp only at h
        split at h
        · rename_i hcond
          simp only [Bool.and_eq_true, Option.any_eq_true, decide_eq_true_eq] at hcond
          obtain ⟨-, u, hu, hlt⟩ := hcond
          rw [List.mem_singleton.1 h]
          exact ⟨hr, hold old ho, Or.inr ⟨ho, u, hu, hlt⟩⟩
        · cases h

/-- The secret found for a complete request is one its record may sign with, and made its signature. -/
private theorem secretOf_spec {a : AgentApi} {q : Pending} {body : List UInt8} {s : JsString}
    (h : a.secretOf c q body = some s) :
    ∃ n, a.nodes.heap[q.addr]? = some n ∧ ValidFor n q.hubMs s ∧
      q.sig = some (c.signRequest s q.endpoint.method q.endpoint.pathname q.tsRaw body) := by
  obtain ⟨n, hn, hs⟩ := Option.bind_eq_some_iff.1 h
  obtain ⟨hfind, hne⟩ := Option.filter_eq_some_iff.1 hs
  exact ⟨n, hn, mem_candidates (List.mem_of_find?_eq_some hfind) (by simpa using hne),
    Crypto.eq_signRequest (by simpa using List.find?_some hfind)⟩

private theorem secretOf_of_checkBody {a : AgentApi} {q : Pending} {body : List UInt8}
    (h : a.checkBody c valid q body = .ok ()) : ∃ s, a.secretOf c q body = some s := by
  unfold checkBody at h
  split at h
  · cases h
  · rename_i hsome
    exact Option.ne_none_iff_exists'.1 (by simpa using hsome)

/-! ### The record a request holds -/

/-- The store is in step with its file, and a waiting request holds the record that the table has for its node. -/
structure Attached (a : AgentApi) : Prop where
  synced : a.nodes.Synced
  pending : ∀ q ∈ a.pending, a.nodes.table.get? q.node = some q.addr

/-- Is the step one of the running process? -/
def ApiStep.running (s : ApiStep) : Bool :=
  match s.op with
  | .restart _ _ _ => false
  | _ => true

variable (c valid maxBody) in
/-- A step of the running process changes the node store by its own calls only. -/
private theorem keeps_step {a : AgentApi} (h : a.nodes.Synced) {s : ApiStep} (hs : s.running = true) :
    a.nodes.Keeps (a.step c valid maxBody s).nodes := by
  obtain ⟨t, op⟩ := s
  cases op with
  | head hd =>
    obtain ⟨-, hnodes, -⟩ := checkHead_spec maxBody a hd t
    have hsame : (a.checkHead maxBody hd t).1.nodes = a.nodes := by
      rcases hnodes with hn | hn
      · exact hn
      · rw [hn, NodeStore.load_of_synced h]
    rcases step_head c valid maxBody a hd t with ⟨q, -, hstep⟩ | ⟨-, hstep⟩
    · rw [hstep]
      show a.nodes.Keeps (a.checkHead maxBody hd t).1.nodes
      rw [hsame]
      exact .refl h
    · rw [hstep, hsame]
      exact .refl h
  | body i body =>
    cases hq : a.pending[i]? with
    | none =>
      rw [step_body_none hq]
      exact .refl h
    | some q =>
      rw [step_body hq]
      rcases complete_spec c valid maxBody { a with pending := a.pending.eraseIdx i } q
        body t with ⟨b, -, -, haccept⟩ | ⟨-, -, hnodes⟩
      · rw [haccept]
        exact .refl h
      · rw [hnodes]
        exact .refl h
  | store op => exact NodeStore.keeps_call h t op
  | restart hostname id secret => cases hs

theorem Attached.step {a : AgentApi} (h : a.Attached) (s : ApiStep) : (a.step c valid maxBody s).Attached := by
  by_cases hs : s.running = true
  · have hkeeps := keeps_step c valid maxBody h.synced hs
    refine ⟨hkeeps.synced, fun q hq => ?_⟩
    suffices hold : q ∈ a.pending ∨ (a.nodes.get q.node).2 = some q.addr by
      refine hkeeps.table q.node q.addr ?_
      rcases hold with hq | hget
      · exact h.pending q hq
      · unfold NodeStore.get at hget
        rw [NodeStore.load_of_synced h.synced] at hget
        dsimp only at hget
        split at hget
        · exact hget
        · cases hget
    obtain ⟨t, op⟩ := s
    cases op with
    | head hd =>
      obtain ⟨hsame, -, hok⟩ := checkHead_spec maxBody a hd t
      rcases step_head c valid maxBody a hd t with ⟨q', hq', hstep⟩ | ⟨-, hstep⟩
      · rw [hstep] at hq
        rcases List.mem_append.1 hq with hq | hq
        · exact Or.inl (hsame.pending ▸ hq)
        · rw [List.mem_singleton.1 hq]
          exact Or.inr (hok q' hq').2.2
      · rw [hstep] at hq
        exact Or.inl (hsame.pending ▸ hq)
    | body i body =>
      cases hp : a.pending[i]? with
      | none =>
        rw [step_body_none hp] at hq
        exact Or.inl hq
      | some q' =>
        rw [step_body hp] at hq
        rcases complete_spec c valid maxBody
          { a with pending := a.pending.eraseIdx i } q' body t with ⟨b, -, -, haccept⟩ | ⟨-, hsame, -⟩
        · rw [haccept] at hq
          exact Or.inl (List.mem_of_mem_eraseIdx hq)
        · rw [hsame.pending] at hq
          exact Or.inl (List.mem_of_mem_eraseIdx hq)
    | store op => exact Or.inl hq
    | restart hostname id secret => cases hs
  · obtain ⟨t, op⟩ := s
    cases op with
    | restart hostname id secret =>
      exact ⟨NodeStore.synced_ensureLocal _ _ _ _ _, fun q hq => absurd hq List.not_mem_nil⟩
    | head => exact absurd rfl hs
    | body => exact absurd rfl hs
    | store => exact absurd rfl hs

/-! ### What is accepted -/

section

variable (c : Crypto) (valid : List UInt8 → Bool) (maxBody : ℕ)

/-- What a step answers; a request that waits for its body is not answered yet. -/
def answer (a : AgentApi) (s : ApiStep) : Option (Except Refusal Unit) :=
  match s.op with
  | .head h => match (a.checkHead maxBody h s.time).2 with
    | .ok _ => none
    | .error e => some (.error e)
  | .body i body =>
    (a.pending[i]?).map fun q => ({ a with pending := a.pending.eraseIdx i }.complete c valid maxBody q body s.time).2
  | .store _ | .restart _ _ _ => none

/-- The step accepts nothing. -/
structure Declines (a : AgentApi) (s : ApiStep) : Prop where
  answer : a.answer c valid maxBody s ≠ some (.ok ())
  accepted : (a.step c valid maxBody s).accepted = a.accepted

/-- The step accepts the waiting request with this body: it is signed with a secret that its node has. -/
structure Accepts (a : AgentApi) (s : ApiStep) (q : Pending) (body : List UInt8) : Prop where
  op : ∃ i, s.op = .body i (some body) ∧ a.pending[i]? = some q
  fits : body.length ≤ maxBody
  signed : ∃ n secret, a.nodes.find q.node = some n ∧ ValidFor n q.hubMs secret ∧
    q.sig = some (c.signRequest secret q.endpoint.method q.endpoint.pathname q.tsRaw body)
  answer : a.answer c valid maxBody s = some (.ok ())
  accepted : (a.step c valid maxBody s).accepted = a.accepted ++ [⟨q.endpoint, q.node, q.ts⟩]

end

variable (c valid maxBody) in
/-- A request is accepted when it is signed so, and by no other step. -/
private theorem Attached.accepts {a : AgentApi} (h : a.Attached) (s : ApiStep) :
    Declines c valid maxBody a s ∨ ∃ q body, Accepts c valid maxBody a s q body := by
  obtain ⟨t, op⟩ := s
  cases op with
  | head hd =>
    obtain ⟨hsame, -, -⟩ := checkHead_spec maxBody a hd t
    refine Or.inl ⟨?_, ?_⟩
    · unfold answer
      dsimp only
      split <;> simp
    · rcases step_head c valid maxBody a hd t with ⟨q, -, hstep⟩ | ⟨-, hstep⟩
      · rw [hstep]
        exact hsame.accepted
      · rw [hstep]
        exact hsame.accepted
  | body i body =>
    cases hp : a.pending[i]? with
    | none =>
      refine Or.inl ⟨by simp [answer, hp], ?_⟩
      rw [step_body_none hp]
    | some q =>
      have hanswer : a.answer c valid maxBody ⟨t, .body i body⟩ =
          some ({ a with pending := a.pending.eraseIdx i }.complete c valid maxBody q body t).2 := by
        simp [answer, hp]
      have hmem : q ∈ a.pending := List.mem_of_getElem? hp
      rcases complete_spec c valid maxBody { a with pending := a.pending.eraseIdx i } q
        body t with ⟨b, hb, hok, haccept⟩ | ⟨hno, hsame, -⟩
      · obtain ⟨rfl, hfits⟩ := Option.filter_eq_some_iff.1 hb
        obtain ⟨secret, hsecret⟩ := secretOf_of_checkBody hok
        obtain ⟨n, hn, hvalid, hsig⟩ := secretOf_spec hsecret
        refine Or.inr ⟨q, b, ⟨i, rfl, hp⟩, of_decide_eq_true hfits, ⟨n, secret, ?_, hvalid, hsig⟩, ?_, ?_⟩
        · rw [NodeStore.find, h.pending q hmem]
          exact hn
        · rw [hanswer, complete, hb]
          dsimp only
          rw [hok]
        · rw [step_body hp, haccept]
          rfl
      · refine Or.inl ⟨?_, ?_⟩
        · rw [hanswer, complete]
          split
          · simp
          · rename_i b hb
            have hb := hno b hb
            split
            · rename_i hok
              exact absurd hok hb
            · simp
            · simp
        · rw [step_body hp]
          exact hsame.accepted
  | store op => exact Or.inl ⟨by simp [answer], rfl⟩
  | restart hostname id secret => exact Or.inl ⟨by simp [answer], rfl⟩

/-! ### The request that waits -/

/-- The request that waits is that of the head, which came at `t`. -/
structure Asked (h : Head) (t : ℤ) (q : Pending) : Prop where
  method : h.method = q.endpoint.method
  pathname : pathOf h.url = q.endpoint.pathname
  node : h.node.getD [] = q.node.1
  tsRaw : h.ts.getD [] = q.tsRaw
  sig : h.sig = q.sig
  hubMs : q.hubMs = t

private theorem pathname_of_endpointOf {path : JsString} {e : Endpoint} (h : endpointOf path = some e) :
    path = e.pathname := by
  unfold endpointOf at h
  split at h
  · rename_i hpath
    obtain rfl := Option.some.inj h
    exact hpath
  · split at h
    · rename_i hpath
      obtain rfl := Option.some.inj h
      exact hpath
    · cases h

private theorem asked_of_checkHead {a : AgentApi} {h : Head} {t : ℤ} {q : Pending}
    (hq : (a.checkHead maxBody h t).2 = .ok q) :
    Asked h t q := by
  have hunknown : ∀ b : AgentApi, (b.refuseUnknown h t).2 ≠ .ok q := fun b => (refuseUnknown_spec b h t).2.2 q
  unfold checkHead at hq
  split at hq
  · cases hq
  · rename_i endpoint hendpoint
    split at hq
    · cases hq
    · rename_i hmethod
      split at hq
      · cases hq
      · split at hq
        · cases hq
        · dsimp only at hq
          split at hq
          · split at hq
            · exact absurd hq (hunknown _)
            · split at hq
              · cases hq
              · -- the checks from the timestamp on keep what the head says
                unfold checkTs at hq
                dsimp only at hq
                split at hq
                · cases hq
                · split at hq
                  · cases hq
                  · split at hq
                    · cases hq
                    · obtain rfl := Except.ok.inj hq
                      exact ⟨not_not.1 hmethod, pathname_of_endpointOf hendpoint, rfl, rfl, rfl, rfl⟩
          · exact absurd hq (hunknown _)

/-- A request that waits was asked before. -/
private theorem asked_run {a : AgentApi} (ha : a.pending = []) (steps : List ApiStep) :
    ∀ q ∈ (Runs.run (step c valid maxBody) a steps).pending, ∃ h t, ⟨t, .head h⟩ ∈ steps ∧ Asked h t q := by
  induction steps using List.reverseRecOn with
  | nil =>
    intro q hq
    rw [Runs.run_nil, ha] at hq
    exact absurd hq List.not_mem_nil
  | append_singleton steps s ih =>
    intro q hq
    rw [Runs.run_snoc] at hq
    generalize Runs.run (step c valid maxBody) a steps = b at ih hq
    have hold : q ∈ b.pending → ∃ h t, ⟨t, .head h⟩ ∈ steps ++ [s] ∧ Asked h t q := by
      intro hq
      obtain ⟨h, t, hmem, hasked⟩ := ih q hq
      exact ⟨h, t, List.mem_append_left _ hmem, hasked⟩
    obtain ⟨t, op⟩ := s
    cases op with
    | head hd =>
      obtain ⟨hsame, -, -⟩ := checkHead_spec maxBody b hd t
      rcases step_head c valid maxBody b hd t with ⟨q', hq', hstep⟩ | ⟨-, hstep⟩
      · rw [hstep] at hq
        rcases List.mem_append.1 hq with hq | hq
        · exact hold (hsame.pending ▸ hq)
        · rw [List.mem_singleton.1 hq]
          exact ⟨hd, t, by simp, asked_of_checkHead hq'⟩
      · rw [hstep] at hq
        exact hold (hsame.pending ▸ hq)
    | body i body =>
      cases hp : b.pending[i]? with
      | none =>
        rw [step_body_none hp] at hq
        exact hold hq
      | some q' =>
        rw [step_body hp] at hq
        rcases complete_spec c valid maxBody
          { b with pending := b.pending.eraseIdx i } q' body t with ⟨b', -, -, haccept⟩ | ⟨-, hsame, -⟩
        · rw [haccept] at hq
          exact hold (List.mem_of_mem_eraseIdx hq)
        · rw [hsame.pending] at hq
          exact hold (List.mem_of_mem_eraseIdx hq)
    | store op => exact hold hq
    | restart hostname id secret => exact absurd hq List.not_mem_nil

/-! ### Revoked nodes -/

/-- The node's record is revoked. -/
def Revoked (a : AgentApi) (id : NodeId) : Prop :=
  ∃ addr n, a.nodes.table.get? id = some addr ∧ a.nodes.heap[addr]? = some n ∧ n.revoked = true

theorem Revoked.step {a : AgentApi} {id : NodeId} (h : a.Revoked id) (ha : a.Attached) {s : ApiStep}
    (hs : s.running = true) : (a.step c valid maxBody s).Revoked id := by
  obtain ⟨addr, n, htable, hheap, hr⟩ := h
  have hkeeps := keeps_step c valid maxBody ha.synced hs
  obtain ⟨n', hn', hr'⟩ := hkeeps.revoked addr n hheap hr
  exact ⟨addr, n', hkeeps.table id addr htable, hn', hr'⟩

/-- While the process runs, nothing more is accepted of a revoked node. -/
theorem Revoked.run {a : AgentApi} {id : NodeId} (h : a.Revoked id) (ha : a.Attached) {steps : List ApiStep}
    (hs : ∀ s ∈ steps, s.running = true) :
    ∃ l, (Runs.run (AgentApi.step c valid maxBody) a steps).accepted = a.accepted ++ l ∧ ∀ x ∈ l, x.node ≠ id := by
  induction steps generalizing a with
  | nil => exact ⟨[], (List.append_nil _).symm, by simp⟩
  | cons s steps ih =>
    have hrun := hs s List.mem_cons_self
    obtain ⟨l, hl, hall⟩ := ih (h.step ha hrun) (ha.step s) (fun s' hs' => hs s' (List.mem_cons_of_mem _ hs'))
    rw [Runs.run_cons, hl]
    rcases ha.accepts c valid maxBody s with hno | ⟨q, body, hq⟩
    · exact ⟨l, by rw [hno.accepted], hall⟩
    · obtain ⟨n, secret, hfind, hvalid, -⟩ := hq.signed
      refine ⟨_ :: l, by rw [hq.accepted, List.append_assoc]; rfl, fun x hx => ?_⟩
      rcases List.mem_cons.1 hx with rfl | hx
      · rintro rfl
        obtain ⟨addr, n', htable, hheap, hr⟩ := h
        rw [NodeStore.find, show a.nodes.table.get? q.node = some addr from htable] at hfind
        obtain rfl := Option.some.inj (hheap.symm.trans hfind)
        rw [hvalid.1] at hr
        cases hr
      · exact hall x hx

theorem Attached.start (file : Option (ℕ × OMap NodeId NodeRec)) (replayFile : OMap (NodeId × Endpoint) ℕ)
    (accepted : List Accepted) (hostname : JsString) (id : NodeId) (secret : Secret) (t : ℤ) :
    (AgentApi.start file replayFile accepted hostname id secret t).Attached :=
  ⟨NodeStore.synced_ensureLocal _ _ _ _ _, fun _ hq => absurd hq List.not_mem_nil⟩

/-- In every run of a hub over any files its store wrote: a step accepts a request only as its body completes, when the
signature in its head is that of its own method, path, timestamp and body, made with a secret of 64 digits that its node
has then, the node not revoked; and after a known node other than the hub's own is revoked, no request of it is accepted
for as long as the process runs. -/
theorem accepted_with_a_secret (c : Crypto) (valid : List UInt8 → Bool) (maxBody : ℕ)
    (file : Option (ℕ × OMap NodeId NodeRec)) (replayFile : OMap (NodeId × Endpoint) ℕ) (hostname : JsString)
    (id : NodeId) (secret : Secret) (t : ℤ) (steps : List ApiStep) :
    let a := AgentApi.start file replayFile [] hostname id secret t
    (∀ pre s post, steps = pre ++ s :: post →
        Declines c valid maxBody (Runs.run (step c valid maxBody) a pre) s ∨
          ∃ q body h t', Accepts c valid maxBody (Runs.run (step c valid maxBody) a pre) s q body ∧
            ⟨t', .head h⟩ ∈ pre ∧ Asked h t' q) ∧
      ∀ pre tr node written mid post, steps = pre ++ ⟨tr, .store (.revoke node written)⟩ :: mid ++ post →
        (∃ n, (Runs.run (step c valid maxBody) a pre).nodes.find node = some n ∧ n.isLocal = false) →
        (∀ s ∈ mid, s.running = true) →
        ∃ l, (Runs.run (step c valid maxBody) a (pre ++ ⟨tr, .store (.revoke node written)⟩ :: mid)).accepted =
            (Runs.run (step c valid maxBody) a pre).accepted ++ l ∧ ∀ x ∈ l, x.node ≠ node := by
  intro a
  have ha : a.Attached := .start _ _ _ _ _ _ _
  have hrun : ∀ pre, (Runs.run (step c valid maxBody) a pre).Attached :=
    fun pre => Runs.invariant (fun _ s hs => hs.step s) ha pre
  constructor
  · intro pre s post _
    rcases (hrun pre).accepts c valid maxBody s with hno | ⟨q, body, hq⟩
    · exact Or.inl hno
    · obtain ⟨i, -, hi⟩ := hq.op
      obtain ⟨h, t', hmem, hasked⟩ := asked_run (c := c) (a := a) rfl pre q (List.mem_of_getElem? hi)
      exact Or.inr ⟨q, body, h, t', hq, hmem, hasked⟩
  · intro pre tr node written mid post _ hknown hmid
    have hpre := hrun pre
    rw [Runs.run_append, Runs.run_cons]
    generalize Runs.run (step c valid maxBody) a pre = b at hknown hpre ⊢
    obtain ⟨n, hn, hlocal⟩ := hknown
    have hrevoked : (b.step c valid maxBody ⟨tr, .store (.revoke node written)⟩).Revoked node :=
      NodeStore.revoked_of_revoke hpre.synced hn hlocal written
    exact hrevoked.run (hpre.step _) hmid

end AgentApi

end Servitals
