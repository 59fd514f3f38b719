import Servitals.AgentApart
import Servitals.AgentCall
import Servitals.WebPush

/-!
# What agents are answered

The answers of `hub/lib/agentapi.js` as they are written: the code, the headers and the text of a refusal (`fail`), and the
signed answer to an accepted request (`reply`), with the secret that the request was signed with and its timestamp.  An
open wait keeps both until it ends.  Requests come with the address that `resolveClient` makes of their peer and headers.

Whoever fails under other names, from whatever address, changes no byte of what a node is answered (`answered_alike`).
-/

namespace Servitals

/-- An answer: its code, its headers as they are set, and its body. -/
structure AgentAnswer where
  code : ℕ
  headers : List (JsString × JsString)
  body : JsString
  deriving DecidableEq

def contentType : JsString × JsString := (js "content-type", js "application/json")

namespace Refusal

/-- The name of a refusal. -/
def error : Refusal → JsString
  | notFound => js "not_found"
  | methodNotAllowed => js "method_not_allowed"
  | queryNotAllowed => js "query_not_allowed"
  | unsupportedProtocol => js "unsupported_protocol"
  | unknownNode => js "unknown_node"
  | clockSkew => js "clock_skew"
  | replay => js "replay"
  | tooLarge => js "too_large"
  | badSignature => js "bad_signature"
  | invalidSnapshot => js "invalid_snapshot"
  | rateLimited => js "rate_limited"

/-- `MESSAGES` -/
def message : Refusal → JsString
  | notFound => js "no such endpoint"
  | methodNotAllowed => js "wrong method for this endpoint"
  | queryNotAllowed => js "agent requests carry no query string"
  | unsupportedProtocol => js "this hub speaks protocol 1"
  | unknownNode => js "unknown or revoked node"
  | clockSkew => js "clock differs from the hub by more than 120 s"
  | replay => js "timestamp not newer than the last accepted one"
  | tooLarge => js "request body too large"
  | badSignature => js "signature does not match"
  | invalidSnapshot => js "snapshot failed validation"
  | rateLimited => js "pushing too often"

/-- `fail`; `more` are further headers, and `members` the text of further members of the body. -/
def fail (e : Refusal) (more : List (JsString × JsString)) (members : JsString) : AgentAnswer where
  code := e.code
  headers := contentType :: more
  body := js "\x7b\"error\":" ++ quoted e.error ++ js ",\"message\":" ++ quoted e.message ++ members ++ js "\x7d"

/-- `Math.ceil(ms / 1000)` in the header. -/
def retryAfter (ms : ℤ) : JsString × JsString := (js "retry-after", intText (-(-ms / 1000)))

/-- A request that is refused on its head. -/
def atHead (hubMs : ℤ) : Refusal → AgentAnswer
  | rateLimited => rateLimited.fail [retryAfter FAIL_WINDOW_MS] []
  | clockSkew => clockSkew.fail [] (js ",\"hub_ms\":" ++ intText hubMs)
  | tooLarge => tooLarge.fail [(js "connection", js "close")] []
  | e => e.fail [] []

/-- A complete request that is refused; `since` is the time since the last push, `path` where the snapshot is wrong. -/
def atBody (since : ℤ) (path : JsString) : Refusal → AgentAnswer
  | rateLimited => rateLimited.fail [retryAfter (PUSH_MIN_MS - since)] []
  | invalidSnapshot => invalidSnapshot.fail [] (js ",\"path\":" ++ quoted path)
  | tooLarge => tooLarge.fail [(js "connection", js "close")] []
  | e => e.fail [] []

end Refusal

/-- `reply` -/
def reply (c : Crypto) (code : ℕ) (secret ts body : JsString) : AgentAnswer where
  code := code
  headers := (js "x-servitals-sig", c.signReply secret ts (encodeUtf8 body)) :: if body = [] then [] else [contentType]
  body := body

/-- `{ ok: true }`, with the paths of the groups that were left out. -/
def okText (dropped : List JsString) : JsString :=
  if dropped = [] then js "\x7b\"ok\":true\x7d"
  else js "\x7b\"ok\":true,\"dropped\":[" ++ [0x2c].intercalate (dropped.map quoted) ++ js "]\x7d"

def sampleText : JsString := js "\x7b\"sample\":true\x7d"

/-- A request of the server, as it comes: `req` is what its head's address is resolved from. -/
structure AgentRequest where
  step : AgentServer.Step
  req : ClientReq

/-- `clientIp(req)` -/
def AgentRequest.resolved (cfg : ProxyConfig) (x : AgentRequest) : AgentServer.Step :=
  match x.step.op with
  | .head n h => ⟨x.step.time, .head n { h with ip := ((cfg.resolveClient x.req).ip).getD [] }⟩
  | _ => x.step

/-- The server, what its open waits are answered with, and what was written. -/
structure AgentWire (σ : Type*) where
  server : AgentServer σ
  signed : OMap ℕ (JsString × JsString)
  written : List (ℕ × AgentAnswer)

namespace AgentWire

variable {σ : Type*}

section

variable (cfg : ProxyConfig) (c : Crypto) (check : List UInt8 → Except JsString (List JsString)) (maxBody : ℕ)
  (onSnapshot : σ → NodeId → List UInt8 → ℤ → σ)

/-- `validate(raw).ok` -/
def valid (body : List UInt8) : Bool := (check body).toBool

/-- The wait that a body completes: its number, and the secret and the timestamp that its end is signed with. -/
def opened (s : AgentServer σ) (x : AgentServer.Step) : Option (ℕ × JsString × JsString) :=
  match x.op with
  | .body n b => (s.reading.get? n).bind fun q =>
    match (s.api.complete c (valid check) maxBody q b x.time).2, q.endpoint with
    | .ok (), .wait => some (n, (s.api.secretOf c q (b.getD [])).getD [], q.tsRaw)
    | _, _ => none
  | _ => none

/-- What is written to the request `n`, in the step `x`, for a reply of the server. -/
def answerOf (s : AgentServer σ) (signed : OMap ℕ (JsString × JsString)) (x : AgentServer.Step) (n : ℕ) :
    Reply → AgentAnswer
  | .refused e => match s.reading.get? n, x.op with
    | some q, .body _ b => e.atBody (q.hubMs - (s.api.lastPush.get? q.node).getD 0) (match check (b.getD []) with
        | .error path => path
        | .ok _ => [])
    | _, _ => e.atHead x.time
  | .pushed => match s.reading.get? n, x.op with
    | some q, .body _ b => reply c 200 ((s.api.secretOf c q (b.getD [])).getD []) q.tsRaw
        (okText (match check (b.getD []) with
          | .error _ => []
          | .ok dropped => dropped))
    | _, _ => reply c 200 [] [] (okText [])
  | .nothing => reply c 204 ((signed.get? n).getD ([], [])).1 ((signed.get? n).getD ([], [])).2 []
  | .sample => reply c 200 ((signed.get? n).getD ([], [])).1 ((signed.get? n).getD ([], [])).2 sampleText

def start (api : AgentApi) (hub : σ) : AgentWire σ := ⟨.start api hub, .empty, []⟩

/-- The server steps, and each of its new replies is written. -/
def step (w : AgentWire σ) (x : AgentRequest) : AgentWire σ :=
  let x := x.resolved cfg
  let server := w.server.step c (valid check) maxBody onSnapshot x
  { server := server
    signed := match opened c check maxBody w.server x with
      | some (n, v) => w.signed.set n v
      | none => w.signed
    written := w.written ++ (server.answers.drop w.server.answers.length).map fun a =>
      (a.1, answerOf c check w.server w.signed x a.1 a.2) }

end

end AgentWire

/-! ### New replies -/

namespace AgentServer

variable {σ : Type*}

private theorem prefix_finishWait (s : AgentServer σ) (id : NodeId) (n : ℕ) (r : Reply) :
    s.answers <+: (s.finishWait id n r).answers := by
  unfold finishWait
  dsimp only
  split
  · exact List.prefix_rfl
  · exact List.prefix_append _ _

private theorem prefix_openWait (s : AgentServer σ) (id : NodeId) (n : ℕ) :
    s.answers <+: (s.openWait id n).answers := by
  unfold openWait
  split
  · exact prefix_finishWait s _ _ _
  · exact List.prefix_rfl

private theorem prefix_finishWaits (es : List (NodeId × ℕ)) (s : AgentServer σ) :
    s.answers <+: (es.foldl (fun s e => s.finishWait e.1 e.2 .nothing) s).answers := by
  induction es generalizing s with
  | nil => exact List.prefix_rfl
  | cons e es ih => exact (prefix_finishWait s e.1 e.2 .nothing).trans (ih _)

/-- A step takes no reply back. -/
private theorem prefix_step (s : AgentServer σ) (c : Crypto) (valid : List UInt8 → Bool) (maxBody : ℕ)
    (onSnapshot : σ → NodeId → List UInt8 → ℤ → σ) (x : Step) :
    ∃ news, (s.step c valid maxBody onSnapshot x).answers = s.answers ++ news := by
  have hprefix : s.answers <+: (s.step c valid maxBody onSnapshot x).answers := by
    obtain ⟨t, op⟩ := x
    cases op with
    | head n h =>
      show s.answers <+: (s.head maxBody n h t).answers
      unfold head
      split
      · exact List.prefix_rfl
      · split
        · exact List.prefix_rfl
        · exact List.prefix_append _ _
    | body n b =>
      show s.answers <+: (s.body c valid maxBody onSnapshot n b t).answers
      unfold body
      cases s.reading.get? n with
      | none => exact List.prefix_rfl
      | some q =>
        dsimp only
        generalize s.api.complete c valid maxBody q b t = r
        obtain ⟨api, e | ⟨⟨⟩⟩⟩ := r
        · exact List.prefix_append _ _
        · cases q.endpoint with
          | push => exact List.prefix_append _ _
          | wait => exact prefix_openWait { s with api := api, reading := s.reading.erase n } q.node n
    | timeout n =>
      show s.answers <+: (s.timeout n).answers
      unfold timeout
      split
      · exact prefix_finishWait s _ _ _
      · exact List.prefix_rfl
    | closed n =>
      show s.answers <+: (s.closed n).answers
      unfold closed
      split
      · exact List.prefix_rfl
      · exact List.prefix_rfl
    | wake id =>
      show s.answers <+: (s.wake id t).answers
      unfold wake
      split
      · exact prefix_finishWait { s with lastWake := s.lastWake.set id t } _ _ _
      · exact List.prefix_rfl
    | close => exact prefix_finishWaits _ s
    | store op => exact List.prefix_rfl
  obtain ⟨news, hnews⟩ := hprefix
  exact ⟨news, hnews.symm⟩

/-- The node's requests that wait for their bodies are the same, but for how many were accepted before. -/
private theorem SameTo.reading_cases {id : NodeId} {named : ℕ → Bool} {s s' : AgentServer σ} (h : SameTo id named s s')
    {n : ℕ} (hn : named n = true) :
    (s.reading.get? n = none ∧ s'.reading.get? n = none) ∨
      ∃ q m, s.reading.get? n = some q ∧ s'.reading.get? n = some { q with mark := m } := by
  have hreading := h.reading n hn
  cases hq : s.reading.get? n with
  | none =>
    rw [hq, Option.map_none] at hreading
    exact Or.inl ⟨rfl, Option.map_eq_none_iff.1 hreading.symm⟩
  | some q =>
    rw [hq, Option.map_some] at hreading
    obtain ⟨q', hq', hunmarked⟩ := Option.map_eq_some_iff.1 hreading.symm
    refine Or.inr ⟨q, q'.mark, rfl, hq'.trans (congrArg some ?_)⟩
    have hback : q' = { q'.unmarked with mark := q'.mark } := rfl
    rw [hback, hunmarked]
    rfl

end AgentServer

namespace AgentWire

variable {σ : Type*} {cfg : ProxyConfig} {c : Crypto} {check : List UInt8 → Except JsString (List JsString)} {maxBody : ℕ}
  {onSnapshot : σ → NodeId → List UInt8 → ℤ → σ} {id : NodeId} {named : ℕ → Bool}

/-! ### What an answer is made of -/

section

variable {s s' : AgentServer σ}

private theorem complete_snd (a : AgentApi) (valid : List UInt8 → Bool) (q : Pending) (b : Option (List UInt8))
    (t : ℤ) :
    (a.complete c valid maxBody q b t).2 = match AgentApi.readLimited maxBody b with
      | none => .error .tooLarge
      | some b => a.checkBody c valid q b := by
  unfold AgentApi.complete
  cases AgentApi.readLimited maxBody b with
  | none => rfl
  | some b =>
    dsimp only
    split
    · rename_i hok
      exact hok.symm
    · rename_i he
      exact he.symm
    · rename_i e _ he
      exact he.symm

variable (c check maxBody) in
/-- The same wait is opened, in both. -/
private theorem opened_eq (h : AgentServer.SameTo id named s s') (hs : s.Owned id named) {x : AgentServer.Step}
    (hx : x.concerns id named = true) : opened c check maxBody s x = opened c check maxBody s' x := by
  obtain ⟨t, op⟩ := x
  cases op with
  | body n b =>
    unfold opened
    dsimp only
    rcases h.reading_cases hx with ⟨hq, hq'⟩ | ⟨q, m, hq, hq'⟩
    · rw [hq, hq']
      rfl
    · have hnode : q.node = id := (hs.reading n q hq).1.1 hx
      have hchecked : ∀ b, s.api.checkBody c (valid check) q b = s'.api.checkBody c (valid check) { q with mark := m } b :=
        fun b => h.api.checkBody c (valid check) hnode b
      have hsecret : s.api.secretOf c q (b.getD []) = s'.api.secretOf c { q with mark := m } (b.getD []) := by
        rw [AgentApi.secretOf, AgentApi.secretOf, h.api.nodes]
      rw [hq, hq', Option.bind_some, Option.bind_some, complete_snd, complete_snd, hsecret]
      simp only [hchecked]
  | head n hd => rfl
  | timeout n => rfl
  | closed n => rfl
  | wake id' => rfl
  | close => rfl
  | store op => rfl

variable (c check) in
/-- The same is written to a request of the node, in both. -/
private theorem answerOf_eq (h : AgentServer.SameTo id named s s') (hs : s.Owned id named)
    {signed signed' : OMap ℕ (JsString × JsString)} {n : ℕ} (hn : named n = true) (hsigned : signed.get? n = signed'.get? n)
    (x : AgentServer.Step) (r : Reply) : answerOf c check s signed x n r = answerOf c check s' signed' x n r := by
  obtain ⟨t, op⟩ := x
  cases r with
  | refused e =>
    unfold answerOf
    rcases h.reading_cases hn with ⟨hq, hq'⟩ | ⟨q, m, hq, hq'⟩
    · rw [hq, hq']
    · have hnode : q.node = id := (hs.reading n q hq).1.1 hn
      rw [hq, hq']
      cases op with
      | body k b =>
        dsimp only
        rw [hnode, h.api.lastPush]
      | _ => rfl
  | pushed =>
    unfold answerOf
    rcases h.reading_cases hn with ⟨hq, hq'⟩ | ⟨q, m, hq, hq'⟩
    · rw [hq, hq']
    · rw [hq, hq']
      cases op with
      | body k b =>
        dsimp only
        rw [AgentApi.secretOf, AgentApi.secretOf, h.api.nodes]
      | _ => rfl
  | nothing => rw [answerOf, answerOf, hsigned]
  | sample => rw [answerOf, answerOf, hsigned]

end

/-! ### Two runs -/

variable {w w' : AgentWire σ}

/-- Two servers that are the same to a node, have its waits signed alike and have written the same to its requests. -/
structure SameWire (id : NodeId) (named : ℕ → Bool) (w w' : AgentWire σ) : Prop where
  server : AgentServer.SameTo id named w.server w'.server
  signed : ∀ n, named n = true → w.signed.get? n = w'.signed.get? n
  written : w.written.filter (fun e => named e.1) = w'.written.filter fun e => named e.1

private theorem sameWire_equivalence : Equivalence (SameWire (σ := σ) id named) where
  refl w := ⟨.refl id named w.server, fun _ _ => rfl, rfl⟩
  symm h := ⟨h.server.symm, fun n hn => (h.signed n hn).symm, h.written.symm⟩
  trans h h' := ⟨h.server.trans h'.server, fun n hn => (h.signed n hn).trans (h'.signed n hn), h.written.trans h'.written⟩

variable (cfg c check maxBody onSnapshot) in
/-- A step in which the numbers `named` are those of the requests that name the node, the node is listed when it is named,
and the counted failures are not cleared. -/
def Apart (id : NodeId) (named : ℕ → Bool) (w : AgentWire σ) (x : AgentRequest) : Prop :=
  (match x.step.op with
    | .head n h => (named n = true ↔ h.node.getD [] = id.1) ∧
        (named n = true → (w.server.api.nodes.get id).2.isSome = true)
    | _ => True) ∧
    w.server.api.Uncleared (w.step cfg c check maxBody onSnapshot x).server.api

instance {x : AgentRequest} : Decidable (Apart cfg c check maxBody onSnapshot id named w x) :=
  match x with
  | ⟨⟨_, .head _ _⟩, _⟩ => inferInstanceAs (Decidable ((_ ∧ _) ∧ _))
  | ⟨⟨_, .body _ _⟩, _⟩ | ⟨⟨_, .timeout _⟩, _⟩ | ⟨⟨_, .closed _⟩, _⟩ | ⟨⟨_, .wake _⟩, _⟩ | ⟨⟨_, .close⟩, _⟩
  | ⟨⟨_, .store _⟩, _⟩ => inferInstanceAs (Decidable (True ∧ _))

/-- The address of a request is resolved, so it is one or none. -/
private theorem Apart.names {x : AgentRequest} (h : Apart cfg c check maxBody onSnapshot id named w x) :
    w.server.Names id named (x.resolved cfg) := by
  obtain ⟨⟨t, op⟩, req⟩ := x
  cases op with
  | head n hd => exact ⟨addressed_resolveClient cfg req, h.1.1, h.1.2⟩
  | _ => trivial

private theorem concerns_resolved (x : AgentRequest) :
    (x.resolved cfg).concerns id named = x.step.concerns id named := by
  obtain ⟨⟨t, op⟩, req⟩ := x
  cases op <;> rfl

variable (cfg c check maxBody onSnapshot named) in
/-- What a step adds to what was written to the node's requests. -/
private theorem written_step (w : AgentWire σ) (x : AgentRequest) : ∃ news,
    (w.server.step c (valid check) maxBody onSnapshot (x.resolved cfg)).answers = w.server.answers ++ news ∧
      (w.step cfg c check maxBody onSnapshot x).written.filter (fun e => named e.1) =
        w.written.filter (fun e => named e.1) ++ (news.filter fun a => named a.1).map fun a =>
          (a.1, answerOf c check w.server w.signed (x.resolved cfg) a.1 a.2) := by
  obtain ⟨news, hnews⟩ := w.server.prefix_step c (valid check) maxBody onSnapshot (x.resolved cfg)
  refine ⟨news, hnews, ?_⟩
  rw [step, hnews, List.drop_left, List.filter_append, List.filter_map]
  rfl

/-- A step that concerns the node, of both. -/
private theorem SameWire.step (h : SameWire id named w w') (hw : w.server.Owned id named)
    (hw' : w'.server.Owned id named)
    {x : AgentRequest} (hx : Apart cfg c check maxBody onSnapshot id named w x)
    (hx' : Apart cfg c check maxBody onSnapshot id named w' x) (hown : x.step.concerns id named = true) :
    SameWire id named (w.step cfg c check maxBody onSnapshot x) (w'.step cfg c check maxBody onSnapshot x) := by
  have hconcerns : (x.resolved cfg).concerns id named = true := (concerns_resolved x).trans hown
  have hserver := h.server.step hw hw' hx.names hx.2 hx'.2 hconcerns
  refine ⟨hserver, fun n hn => ?_, ?_⟩
  · rw [AgentWire.step, AgentWire.step, ← opened_eq c check maxBody h.server hw hconcerns]
    dsimp only
    split
    · rw [OMap.get?_set, OMap.get?_set, h.signed n hn]
    · exact h.signed n hn
  · obtain ⟨news, hnews, hwritten⟩ := written_step cfg c check maxBody onSnapshot named w x
    obtain ⟨news', hnews', hwritten'⟩ := written_step cfg c check maxBody onSnapshot named w' x
    -- the replies to the node's requests are the same, so what is written for each is
    have hreplies : news.filter (fun a => named a.1) = news'.filter fun a => named a.1 := by
      have hafter := hserver.answers
      rw [hnews, hnews', List.filter_append, List.filter_append, h.server.answers] at hafter
      exact List.append_cancel_left hafter
    rw [hwritten, hwritten', h.written, ← hreplies]
    refine congrArg _ (List.map_congr_left fun a ha => ?_)
    have hnamed : named a.1 = true := (List.mem_filter.1 ha).2
    rw [answerOf_eq c check h.server hw hnamed (h.signed a.1 hnamed)]

/-- A step that does not concern it. -/
private theorem sameWire_step (hw : w.server.Owned id named) {x : AgentRequest}
    (hx : Apart cfg c check maxBody onSnapshot id named w x) (hno : x.step.concerns id named = false) :
    SameWire id named w (w.step cfg c check maxBody onSnapshot x) := by
  have hconcerns : (x.resolved cfg).concerns id named = false := (concerns_resolved x).trans hno
  have hserver := AgentServer.sameTo_step hw hx.names hx.2 hconcerns
  refine ⟨hserver, fun n hn => ?_, ?_⟩
  · rw [step]
    dsimp only
    split
    · rename_i m v hopened
      have hm : named m = false := by
        revert hconcerns hopened
        generalize x.resolved cfg = y
        obtain ⟨t, op⟩ := y
        cases op with
        | body k b =>
          intro hk hopened
          obtain ⟨q, -, hq⟩ := Option.bind_eq_some_iff.1 hopened
          split at hq
          · obtain ⟨rfl, -⟩ := Prod.mk.inj (Option.some.inj hq)
            exact hk
          · cases hq
        | _ => exact fun _ hopened => by cases hopened
      refine (OMap.get?_set_of_ne _ ?_ _).symm
      rintro rfl
      rw [hm] at hn
      cases hn
    · rfl
  · obtain ⟨news, hnews, hwritten⟩ := written_step cfg c check maxBody onSnapshot named w x
    have hnone : news.filter (fun a => named a.1) = [] := by
      have hafter := hserver.answers
      rw [hnews, List.filter_append] at hafter
      exact List.self_eq_append_right.1 hafter
    rw [hwritten, hnone, List.map_nil, List.append_nil]

/-- **No one else changes what a node is answered.**  Two runs of the hub have the same requests that name a node, at the
same times and from the same addresses, and any other requests: what is written to the requests of the node is the same,
code, headers and body, while the node is listed and the counted failures are not cleared. -/
theorem answered_alike (cfg : ProxyConfig) (c : Crypto) (check : List UInt8 → Except JsString (List JsString)) (maxBody : ℕ)
    (onSnapshot : σ → NodeId → List UInt8 → ℤ → σ) (file : Option (ℕ × OMap NodeId NodeRec))
    (replayFile : OMap (NodeId × Endpoint) ℕ) (accepted : List Accepted) (hostname : JsString) (drawn : NodeId)
    (secret : Secret) (t : ℤ) (hub : σ) (id : NodeId) (named : ℕ → Bool) {xs ys : List AgentRequest}
    (hxs : Runs.Meets (step cfg c check maxBody onSnapshot) (Apart cfg c check maxBody onSnapshot id named)
      (start (AgentApi.start file replayFile accepted hostname drawn secret t) hub) xs)
    (hys : Runs.Meets (step cfg c check maxBody onSnapshot) (Apart cfg c check maxBody onSnapshot id named)
      (start (AgentApi.start file replayFile accepted hostname drawn secret t) hub) ys)
    (hsame : xs.filter (fun x => x.step.concerns id named) = ys.filter fun x => x.step.concerns id named) :
    (Runs.run (step cfg c check maxBody onSnapshot)
        (start (AgentApi.start file replayFile accepted hostname drawn secret t) hub) xs).written.filter (fun e => named e.1) =
      (Runs.run (step cfg c check maxBody onSnapshot)
        (start (AgentApi.start file replayFile accepted hostname drawn secret t) hub) ys).written.filter fun e => named e.1 := by
  have hsync : (AgentApi.start file replayFile accepted hostname drawn secret t).nodes.Synced :=
    NodeStore.synced_ensureLocal file hostname drawn secret t
  have hstart : (AgentServer.start (AgentApi.start file replayFile accepted hostname drawn secret t) hub).Owned id named :=
    AgentServer.owned_start hsync hub
  have hkeep : ∀ (w : AgentWire σ) (x : AgentRequest), w.server.Owned id named →
      Apart cfg c check maxBody onSnapshot id named w x →
      (w.step cfg c check maxBody onSnapshot x).server.Owned id named := fun _ _ hw hx => hw.step hx.names
  have hother : ∀ (w : AgentWire σ) (x : AgentRequest), w.server.Owned id named →
      Apart cfg c check maxBody onSnapshot id named w x → x.step.concerns id named = false →
      SameWire id named w (w.step cfg c check maxBody onSnapshot x) := fun _ _ hw hx hno => sameWire_step hw hx hno
  have hmine : ∀ (w w' : AgentWire σ) (x : AgentRequest), w.server.Owned id named → w'.server.Owned id named →
      Apart cfg c check maxBody onSnapshot id named w x → Apart cfg c check maxBody onSnapshot id named w' x →
      x.step.concerns id named = true → SameWire id named w w' →
      SameWire id named (w.step cfg c check maxBody onSnapshot x) (w'.step cfg c check maxBody onSnapshot x) :=
    fun _ _ _ hw hw' hx hx' hown h => h.step hw hw' hx hx' hown
  have hrel := Runs.related_run sameWire_equivalence hkeep hother hmine hsame hstart hstart hxs hys
    (sameWire_equivalence.refl _)
  exact hrel.written

/-- A request of the address that the hub sees itself. -/
def direct (t : ℤ) (op : AgentServer.Op) : AgentRequest := ⟨⟨t, op⟩, ⟨some (js "192.168.0.7"), fun _ => none⟩⟩

/-- A process of the hub with its local node, which has written nothing. -/
def fresh : AgentWire Unit := ⟨AgentServer.fresh, .empty, []⟩

/-- A wait of the local node until its timer fires, alone and between two requests of an unknown node. -/
theorem wait_answered_alike :
    (Runs.run (step ⟨.list [], js ""⟩ AgentApi.copiedCrypto (fun _ => .error []) 262144 fun _ _ _ _ => ()) fresh
        [direct 1700000000100 (.head 0 AgentServer.waiting), direct 1700000000300 (.body 0 (some [])),
          direct 1700000030300 (.timeout 0)]).written.filter (fun e => e.1 == 0) =
      (Runs.run (step ⟨.list [], js ""⟩ AgentApi.copiedCrypto (fun _ => .error []) 262144 fun _ _ _ _ => ()) fresh
        [direct 1700000000000 (.head 1 AgentServer.stranger), direct 1700000000100 (.head 0 AgentServer.waiting),
          direct 1700000000200 (.head 2 AgentServer.stranger), direct 1700000000300 (.body 0 (some [])),
          direct 1700000030300 (.timeout 0)]).written.filter fun e => e.1 == 0 :=
  answered_alike ⟨.list [], js ""⟩ AgentApi.copiedCrypto (fun _ => .error []) 262144 (fun _ _ _ _ => ()) none .empty []
    (js "nas") ⟨js "wellwellwell", by decide⟩ AgentApi.copiedSecret 1699999999000 () ⟨js "wellwellwell", by decide⟩
    (fun n => n == 0) (by decide +kernel) (by decide +kernel) rfl

end AgentWire

end Servitals
