import Servitals.AgentReplay
import Servitals.AgentServer
import Servitals.ClientResolver
import Servitals.Lib.Unwinding

/-!
# What the agent API knows of one node

Its record, its timestamps, the time of its last push, the failures counted for an address together with its id, and its
requests and open wait.  A request that names another node, or none, changes nothing of it, whatever its address, while
the counted failures are not cleared (`AgentApi.sameFor_checkHead`, `AgentApi.sameFor_complete`, `sameTo_step`); a request
that names it is checked on this alone (`SameFor.checkHead`, `SameFor.complete`, `SameTo.step`).  So two runs that differ
in the requests of others answer its requests alike (`undisturbed`).
-/

namespace Servitals

/-- A waiting request but for how many were accepted before it. -/
def Pending.unmarked (q : Pending) : Pending := { q with mark := 0 }

/-- An address as the hub resolves it, or none. -/
def Addressed (ip : JsString) : Prop := ip = [] ∨ isIP ip = true

instance (ip : JsString) : Decidable (Addressed ip) := inferInstanceAs (Decidable (_ ∨ _))

private theorem isIP_of_normalizeIp {raw ip : JsString} (h : normalizeIp raw = some ip) : isIP ip = true := by
  unfold normalizeIp at h
  dsimp only at h
  generalize (if js "::ffff:" <+: lower (trim raw) ∧ isIPv4 ((trim raw).drop 7) = true then (trim raw).drop 7
    else trim raw) = plain at h
  split at h
  · rename_i hip
    rw [← Option.some.inj h, isIP, isIPv4_lower, isIPv6_lower]
    exact hip
  · cases h

/-- The client address of a request is such a one, whatever the request and the proxies of the configuration. -/
theorem addressed_resolveClient (cfg : ProxyConfig) (req : ClientReq) :
    Addressed ((cfg.resolveClient req).ip.getD []) := by
  have hsome : ∀ o : Option JsString, (∀ ip, o = some ip → isIP ip = true) → Addressed (o.getD []) := by
    rintro (_ | ip) ho
    · exact Or.inl rfl
    · exact Or.inr (ho ip rfl)
  have hpeer : ∀ ip, ProxyConfig.peerOf req = some ip → isIP ip = true := by
    intro ip hip
    obtain ⟨raw, -, hraw⟩ := Option.bind_eq_some_iff.1 hip
    exact isIP_of_normalizeIp hraw
  have hforwarded : ∀ ip, cfg.forwardedIp req.headers = some ip → isIP ip = true := by
    intro ip hip
    unfold ProxyConfig.forwardedIp at hip
    split at hip
    · obtain ⟨raw, -, hraw⟩ := Option.bind_eq_some_iff.1 hip
      exact isIP_of_normalizeIp hraw
    · split at hip
      · cases hip
      · split at hip
        · cases hip
        · obtain ⟨raw, -, hraw⟩ := Option.bind_eq_some_iff.1 hip
          exact isIP_of_normalizeIp hraw
  refine hsome _ fun ip hip => ?_
  unfold ProxyConfig.resolveClient at hip
  dsimp only at hip
  split at hip
  · split at hip
    · rename_i fwd hfwd
      obtain rfl := Option.some.inj hip
      exact hforwarded fwd hfwd
    · exact hpeer ip hip
  · exact hpeer ip hip

/-- An address has no space in it. -/
private theorem Addressed.space_notMem {ip : JsString} (h : Addressed ip) : 0x20 ∉ ip := by
  rcases h with rfl | h
  · exact List.not_mem_nil
  · intro hm
    have := isSpace_of_isIpUnit (isIpUnit_of_isIP h hm)
    cases this

namespace AgentApi

variable {c : Crypto} {valid : List UInt8 → Bool} {maxBody : ℕ} {id : NodeId} {a a' : AgentApi}

/-! ### The counted failures -/

/-- The key of the failures of an address with a node. -/
def who (ip : JsString) (id : NodeId) : JsString := ip ++ js " " ++ id.1

/-- The node of a key is the one it was made for. -/
private theorem who_injective {ip ip' : JsString} {id' : NodeId} (h : who ip id = who ip' id') : id = id' := by
  have hlen : id.1.length = id'.1.length := by
    have h1 := id.2
    have h2 := id'.2
    simp only [isNodeId, Bool.and_eq_true, beq_iff_eq] at h1 h2
    rw [h1.1, h2.1]
  exact Subtype.ext (List.append_inj_right' h hlen)

/-- An address alone is no such key. -/
private theorem ne_who {ip : JsString} (hip : 0x20 ∉ ip) (ip' : JsString) (id : NodeId) : ip ≠ who ip' id := by
  rintro rfl
  refine hip ?_
  rw [who, List.mem_append, List.mem_append]
  exact Or.inl (Or.inr (by decide))

/-- The failures counted are not cleared: there were fewer than 10000, or some are left. -/
def Uncleared (a a' : AgentApi) : Prop := a.failures.entries.length < 10000 ∨ a'.failures.entries ≠ []

instance (a a' : AgentApi) : Decidable (a.Uncleared a') := inferInstanceAs (Decidable (_ ∨ _))

/-- One failure more. -/
def addFailure (f : Option Failures) (t : ℤ) : Failures :=
  match f with
  | some f => if f.til < t then ⟨1, t + FAIL_WINDOW_MS⟩ else ⟨f.n + 1, f.til⟩
  | none => ⟨1, t + FAIL_WINDOW_MS⟩

private theorem get?_failed {w : JsString} {t : ℤ} (h : a.Uncleared (a.failed w t)) (k : JsString) :
    (a.failed w t).failures.get? k =
      if k = w then some (addFailure (a.failures.get? w) t) else a.failures.get? k := by
  have hset : (a.failed w t).failures =
      if 10000 < (a.failures.set w (addFailure (a.failures.get? w) t)).entries.length then .empty
      else a.failures.set w (addFailure (a.failures.get? w) t) := by
    unfold failed addFailure
    cases a.failures.get? w <;> rfl
  have hroom : ¬ 10000 < (a.failures.set w (addFailure (a.failures.get? w) t)).entries.length := by
    intro hfull
    rw [Uncleared, hset, if_pos hfull] at h
    rcases h with h | h
    · have := OMap.length_set_le a.failures w (addFailure (a.failures.get? w) t)
      omega
    · exact h rfl
  rw [hset, if_neg hroom, OMap.get?_set]

/-- Two states that know the same of a node. -/
structure SameFor (id : NodeId) (a a' : AgentApi) : Prop where
  nodes : a.nodes = a'.nodes
  lastTs : ∀ e, a.lastTs.get? (id, e) = a'.lastTs.get? (id, e)
  lastPush : a.lastPush.get? id = a'.lastPush.get? id
  failures : ∀ ip, a.failures.get? (who ip id) = a'.failures.get? (who ip id)

theorem SameFor.refl (id : NodeId) (a : AgentApi) : SameFor id a a := ⟨rfl, fun _ => rfl, rfl, fun _ => rfl⟩

theorem SameFor.symm (h : SameFor id a a') : SameFor id a' a :=
  ⟨h.nodes.symm, fun e => (h.lastTs e).symm, h.lastPush.symm, fun ip => (h.failures ip).symm⟩

theorem SameFor.trans {a'' : AgentApi} (h : SameFor id a a') (h' : SameFor id a' a'') : SameFor id a a'' :=
  ⟨h.nodes.trans h'.nodes, fun e => (h.lastTs e).trans (h'.lastTs e), h.lastPush.trans h'.lastPush,
    fun ip => (h.failures ip).trans (h'.failures ip)⟩

theorem SameFor.blocked (h : SameFor id a a') (ip : JsString) (t : ℤ) :
    a.blocked (who ip id) t = a'.blocked (who ip id) t := by
  rw [AgentApi.blocked, AgentApi.blocked, h.failures ip]

/-- A failure of an address with the node, in both. -/
theorem SameFor.failed (h : SameFor id a a') {ip : JsString} {t : ℤ} (hroom : a.Uncleared (a.failed (who ip id) t))
    (hroom' : a'.Uncleared (a'.failed (who ip id) t)) :
    SameFor id (a.failed (who ip id) t) (a'.failed (who ip id) t) := by
  refine ⟨h.nodes, h.lastTs, h.lastPush, fun ip' => ?_⟩
  rw [get?_failed hroom, get?_failed hroom', h.failures ip, h.failures ip']

/-- A failure that is not counted with the node. -/
private theorem sameFor_failed {w : JsString} (hw : ∀ ip, w ≠ who ip id) {t : ℤ} (hroom : a.Uncleared (a.failed w t)) :
    SameFor id a (a.failed w t) := by
  refine ⟨rfl, fun _ => rfl, rfl, fun ip => ?_⟩
  rw [get?_failed hroom, if_neg (hw ip).symm]

/-! ### Heads -/

private theorem space_notMem_client {h : Head} (hip : Addressed h.ip) : 0x20 ∉ h.client := by
  unfold Head.client
  split
  · decide
  · exact hip.space_notMem

variable (maxBody) in
/-- A head that does not name the node. -/
theorem sameFor_checkHead (hsync : a.nodes.Synced) {h : Head} (hip : Addressed h.ip) (hother : h.node.getD [] ≠ id.1)
    {t : ℤ} (hroom : a.Uncleared (a.checkHead maxBody h t).1) : SameFor id a (a.checkHead maxBody h t).1 := by
  have hload : { a with nodes := a.nodes.load } = a := by rw [NodeStore.load_of_synced hsync]
  have hunknown : a.Uncleared (a.refuseUnknown h t).1 → SameFor id a (a.refuseUnknown h t).1 := by
    unfold refuseUnknown
    split
    · exact fun _ => .refl id a
    · exact sameFor_failed fun ip => ne_who (space_notMem_client hip) ip id
  revert hroom
  unfold AgentApi.checkHead
  split
  · exact fun _ => .refl id a
  · split
    · exact fun _ => .refl id a
    · split
      · exact fun _ => .refl id a
      · split
        · exact fun _ => .refl id a
        · dsimp only
          split
          · rename_i hid
            have hget : (a.nodes.get ⟨h.node.getD [], hid⟩).1 = a.nodes.load := rfl
            rw [hget, hload]
            split
            · exact hunknown
            · split
              · exact fun _ => .refl id a
              · unfold checkTs
                dsimp only
                split
                · refine sameFor_failed fun ip hw => hother ?_
                  exact congrArg Subtype.val (@who_injective ⟨h.node.getD [], hid⟩ h.client ip id hw)
                · split
                  · exact fun _ => .refl id a
                  · split <;> exact fun _ => .refl id a
          · exact hunknown

variable (maxBody) in
/-- A request that waits remembers its node, and the key its failures are counted for. -/
private theorem named_of_checkHead {h : Head} {t : ℤ} {q : Pending} (hq : (a.checkHead maxBody h t).2 = .ok q) :
    h.node.getD [] = q.node.1 ∧ ∃ ip, q.who = who ip q.node := by
  have hunknown : ∀ b : AgentApi, (b.refuseUnknown h t).2 ≠ .ok q := fun b => (refuseUnknown_spec b h t).2.2 q
  revert hq
  unfold AgentApi.checkHead
  split
  · exact fun hq => by cases hq
  · split
    · exact fun hq => by cases hq
    · split
      · exact fun hq => by cases hq
      · split
        · exact fun hq => by cases hq
        · dsimp only
          split
          · split
            · exact fun hq => absurd hq (hunknown _)
            · split
              · exact fun hq => by cases hq
              · intro hq
                unfold checkTs at hq
                dsimp only at hq
                split at hq
                · cases hq
                · split at hq
                  · cases hq
                  · split at hq
                    · cases hq
                    · cases hq
                      exact ⟨rfl, h.client, rfl⟩
          · exact fun hq => absurd hq (hunknown _)

variable (maxBody) in
/-- The checks on a head that names a listed node, as they are on its own key. -/
private theorem checkHead_of_listed (hsync : a.nodes.Synced) {h : Head} (hname : h.node.getD [] = id.1) {addr : ℕ}
    (haddr : (a.nodes.get id).2 = some addr) (t : ℤ) :
    a.checkHead maxBody h t = match endpointOf (pathOf h.url) with
      | none => (a, .error .notFound)
      | some endpoint =>
        if h.method ≠ endpoint.method then (a, .error .methodNotAllowed)
        else if h.url.contains 0x3f then (a, .error .queryNotAllowed)
        else if h.proto ≠ some (js "1") then (a, .error .unsupportedProtocol)
        else if a.blocked (who h.client id) t then (a, .error .rateLimited)
        else a.checkTs maxBody h endpoint id addr (who h.client id) t := by
  have hget : a.nodes.get id = (a.nodes, some addr) := by
    refine Prod.ext ?_ haddr
    exact NodeStore.load_of_synced hsync
  obtain ⟨s, hs⟩ := id
  obtain rfl : h.node.getD [] = s := hname
  unfold AgentApi.checkHead
  cases endpointOf (pathOf h.url) with
  | none => rfl
  | some endpoint =>
    dsimp only
    rw [dif_pos hs, hget]
    rfl

variable (maxBody) in
theorem SameFor.checkTs (hsame : SameFor id a a') (h : Head) (endpoint : Endpoint) (addr : ℕ) (ip : JsString) (t : ℤ)
    (hroom : a.Uncleared (a.checkTs maxBody h endpoint id addr (who ip id) t).1)
    (hroom' : a'.Uncleared (a'.checkTs maxBody h endpoint id addr (who ip id) t).1) :
    SameFor id (a.checkTs maxBody h endpoint id addr (who ip id) t).1
        (a'.checkTs maxBody h endpoint id addr (who ip id) t).1 ∧
      (a.checkTs maxBody h endpoint id addr (who ip id) t).2.map Pending.unmarked =
        (a'.checkTs maxBody h endpoint id addr (who ip id) t).2.map Pending.unmarked := by
  revert hroom hroom'
  unfold AgentApi.checkTs
  rw [hsame.lastTs endpoint]
  dsimp only
  split
  · exact fun hroom hroom' => ⟨hsame.failed hroom hroom', rfl⟩
  · intro _ _
    split
    · exact ⟨hsame, rfl⟩
    · split
      · exact ⟨hsame, rfl⟩
      · exact ⟨hsame, rfl⟩

variable (maxBody) in
/-- A head that names the node, in both. -/
theorem SameFor.checkHead (hsame : SameFor id a a') (hsync : a.nodes.Synced) {h : Head} (hname : h.node.getD [] = id.1)
    (hlisted : (a.nodes.get id).2.isSome = true) {t : ℤ} (hroom : a.Uncleared (a.checkHead maxBody h t).1)
    (hroom' : a'.Uncleared (a'.checkHead maxBody h t).1) :
    SameFor id (a.checkHead maxBody h t).1 (a'.checkHead maxBody h t).1 ∧
      (a.checkHead maxBody h t).2.map Pending.unmarked = (a'.checkHead maxBody h t).2.map Pending.unmarked := by
  obtain ⟨addr, haddr⟩ := Option.isSome_iff_exists.1 hlisted
  have hsync' : a'.nodes.Synced := hsame.nodes ▸ hsync
  have haddr' : (a'.nodes.get id).2 = some addr := hsame.nodes ▸ haddr
  revert hroom hroom'
  rw [checkHead_of_listed maxBody hsync hname haddr, checkHead_of_listed maxBody hsync' hname haddr',
    hsame.blocked h.client t]
  cases endpointOf (pathOf h.url) with
  | none => exact fun _ _ => ⟨hsame, rfl⟩
  | some endpoint =>
    dsimp only
    split
    · exact fun _ _ => ⟨hsame, rfl⟩
    · split
      · exact fun _ _ => ⟨hsame, rfl⟩
      · split
        · exact fun _ _ => ⟨hsame, rfl⟩
        · split
          · exact fun _ _ => ⟨hsame, rfl⟩
          · exact hsame.checkTs maxBody h endpoint addr h.client t

/-! ### Complete requests -/

private theorem complete_unmarked (q : Pending) (body : Option (List UInt8)) (t : ℤ) :
    a.complete c valid maxBody q.unmarked body t = a.complete c valid maxBody q body t := rfl

theorem SameFor.accept (hsame : SameFor id a a') (q : Pending) : SameFor id (a.accept q) (a'.accept q) := by
  refine ⟨hsame.nodes, fun e => ?_, ?_, hsame.failures⟩
  · show (a.lastTs.set _ _).get? _ = (a'.lastTs.set _ _).get? _
    rw [OMap.get?_set, OMap.get?_set, hsame.lastTs e]
  · unfold AgentApi.accept
    dsimp only
    split
    · show (a.lastPush.set _ _).get? _ = (a'.lastPush.set _ _).get? _
      rw [OMap.get?_set, OMap.get?_set, hsame.lastPush]
    · exact hsame.lastPush

/-- A request of another node that is accepted. -/
private theorem sameFor_accept {q : Pending} (hother : q.node ≠ id) : SameFor id a (a.accept q) := by
  refine ⟨rfl, fun e => ?_, ?_, fun _ => rfl⟩
  · show _ = (a.lastTs.set _ _).get? _
    rw [OMap.get?_set_of_ne]
    exact fun heq => hother (congrArg Prod.fst heq).symm
  · unfold AgentApi.accept
    dsimp only
    split
    · exact (OMap.get?_set_of_ne _ (Ne.symm hother) _).symm
    · rfl

variable (c valid) in
theorem SameFor.checkBody (hsame : SameFor id a a') {q : Pending} (hnode : q.node = id) (body : List UInt8) :
    a.checkBody c valid q body = a'.checkBody c valid q body := by
  have hsecret : a.secretOf c q body = a'.secretOf c q body := by
    rw [secretOf, secretOf, hsame.nodes]
  have hsoon : a.tooSoon q = a'.tooSoon q := by
    rw [tooSoon, tooSoon, hnode, hsame.lastPush]
  rw [AgentApi.checkBody, AgentApi.checkBody, hsecret, hsoon]

variable (c valid maxBody) in
/-- A complete request of the node, in both. -/
theorem SameFor.complete (hsame : SameFor id a a') {q : Pending} (hnode : q.node = id) (hwho : ∃ ip, q.who = who ip q.node)
    {body : Option (List UInt8)} {t : ℤ} (hroom : a.Uncleared (a.complete c valid maxBody q body t).1)
    (hroom' : a'.Uncleared (a'.complete c valid maxBody q body t).1) :
    SameFor id (a.complete c valid maxBody q body t).1 (a'.complete c valid maxBody q body t).1 ∧
      (a.complete c valid maxBody q body t).2 = (a'.complete c valid maxBody q body t).2 := by
  obtain ⟨ip, hip⟩ := hwho
  rw [hnode] at hip
  revert hroom hroom'
  unfold AgentApi.complete
  cases readLimited maxBody body with
  | none => exact fun _ _ => ⟨hsame, rfl⟩
  | some b =>
    dsimp only
    rw [hsame.checkBody c valid hnode b, hip]
    split
    · exact fun _ _ => ⟨hsame.accept q, rfl⟩
    · exact fun hroom hroom' => ⟨hsame.failed hroom hroom', rfl⟩
    · exact fun _ _ => ⟨hsame, rfl⟩

variable (c valid maxBody) in
/-- A complete request of another node. -/
theorem sameFor_complete {q : Pending} (hother : q.node ≠ id) (hwho : ∃ ip, q.who = who ip q.node)
    {body : Option (List UInt8)} {t : ℤ} (hroom : a.Uncleared (a.complete c valid maxBody q body t).1) :
    SameFor id a (a.complete c valid maxBody q body t).1 := by
  obtain ⟨ip, hip⟩ := hwho
  revert hroom
  unfold AgentApi.complete
  cases readLimited maxBody body with
  | none => exact fun _ => .refl id a
  | some b =>
    dsimp only
    split
    · exact fun _ => sameFor_accept hother
    · intro hroom
      refine sameFor_failed (fun ip' heq => hother ?_) hroom
      exact who_injective (hip.symm.trans heq)
    · exact fun _ => .refl id a

end AgentApi

namespace AgentServer

variable {σ : Type*} {c : Crypto} {valid : List UInt8 → Bool} {maxBody : ℕ}
  {onSnapshot : σ → NodeId → List UInt8 → ℤ → σ} {id : NodeId} {named : ℕ → Bool} {s s' : AgentServer σ}

/-! ### What the server keeps of the node's requests -/

private theorem ne_of_named {m n : ℕ} (hm : named m = true) (hn : named n = false) : m ≠ n := by
  rintro rfl
  rw [hn] at hm
  cases hm

/-- Two servers that are the same to a node and its requests, those with the numbers `named`. -/
structure SameTo (id : NodeId) (named : ℕ → Bool) (s s' : AgentServer σ) : Prop where
  api : s.api.SameFor id s'.api
  reading : ∀ n, named n = true → (s.reading.get? n).map Pending.unmarked = (s'.reading.get? n).map Pending.unmarked
  waiter : s.waiters.get? id = s'.waiters.get? id
  timers : ∀ n, named n = true → s.timers.get? n = s'.timers.get? n
  listening : ∀ n, named n = true → s.listening.get? n = s'.listening.get? n
  known : ∀ n, named n = true → (n ∈ s.known ↔ n ∈ s'.known)
  answers : s.answers.filter (fun e => named e.1) = s'.answers.filter fun e => named e.1

theorem SameTo.refl (id : NodeId) (named : ℕ → Bool) (s : AgentServer σ) : SameTo id named s s :=
  ⟨.refl id s.api, fun _ _ => rfl, rfl, fun _ _ => rfl, fun _ _ => rfl, fun _ _ => Iff.rfl, rfl⟩

theorem SameTo.symm (h : SameTo id named s s') : SameTo id named s' s :=
  ⟨h.api.symm, fun n hn => (h.reading n hn).symm, h.waiter.symm, fun n hn => (h.timers n hn).symm,
    fun n hn => (h.listening n hn).symm, fun n hn => (h.known n hn).symm, h.answers.symm⟩

theorem SameTo.trans {s'' : AgentServer σ} (h : SameTo id named s s') (h' : SameTo id named s' s'') :
    SameTo id named s s'' :=
  ⟨h.api.trans h'.api, fun n hn => (h.reading n hn).trans (h'.reading n hn), h.waiter.trans h'.waiter,
    fun n hn => (h.timers n hn).trans (h'.timers n hn), fun n hn => (h.listening n hn).trans (h'.listening n hn),
    fun n hn => (h.known n hn).trans (h'.known n hn), h.answers.trans h'.answers⟩

private theorem sameTo_equivalence : Equivalence (SameTo (σ := σ) id named) :=
  ⟨.refl id named, SameTo.symm, SameTo.trans⟩

theorem SameTo.answered (h : SameTo id named s s') {n : ℕ} (hn : named n = true) : s.Answered n ↔ s'.Answered n := by
  have hmem : ∀ w : AgentServer σ, w.Answered n ↔ ∃ r, (n, r) ∈ w.answers.filter fun e => named e.1 := by
    intro w
    simp [Answered, hn]
  rw [hmem, hmem, h.answers]

theorem SameTo.answer (h : SameTo id named s s') (n : ℕ) (r : Reply) :
    SameTo id named (s.answer n r) (s'.answer n r) := by
  refine ⟨h.api, h.reading, h.waiter, h.timers, h.listening, h.known, ?_⟩
  rw [AgentServer.answer, AgentServer.answer, List.filter_append, List.filter_append, h.answers]

private theorem sameTo_answer {n : ℕ} (hn : named n = false) (r : Reply) : SameTo id named s (s.answer n r) := by
  refine ⟨.refl id s.api, fun _ _ => rfl, rfl, fun _ _ => rfl, fun _ _ => rfl, fun _ _ => Iff.rfl, ?_⟩
  rw [AgentServer.answer, List.filter_append, List.filter_singleton, hn, cond_false, List.append_nil]

/-- What snapshots went to, the times of wakes and the clients that went away. -/
private theorem SameTo.unseen (h : SameTo id named s s') (hub hub' : σ) (lastWake lastWake' : OMap NodeId ℤ)
    (gone gone' : List ℕ) :
    SameTo id named { s with hub := hub, lastWake := lastWake, gone := gone }
      { s' with hub := hub', lastWake := lastWake', gone := gone' } :=
  ⟨h.api, h.reading, h.waiter, h.timers, h.listening, h.known, h.answers⟩

private theorem get?_waiters_forget (id' : NodeId) (n : ℕ) : (s.forget id' n).waiters.get? id =
    if id = id' ∧ s.waiters.get? id' = some n then none else s.waiters.get? id := by
  unfold AgentServer.forget
  dsimp only
  by_cases hw : s.waiters.get? id' = some n
  · rw [if_pos hw, OMap.get?_erase]
    simp only [hw, and_true]
  · rw [if_neg hw, if_neg fun h => hw h.2]

theorem SameTo.forget (h : SameTo id named s s') (n : ℕ) : SameTo id named (s.forget id n) (s'.forget id n) := by
  refine ⟨h.api, h.reading, ?_, fun m hm => ?_, h.listening, h.known, h.answers⟩
  · rw [get?_waiters_forget, get?_waiters_forget, h.waiter]
  · rw [AgentServer.forget, AgentServer.forget, OMap.get?_erase, OMap.get?_erase, h.timers m hm]

private theorem sameTo_forget {id' : NodeId} (hid : id' ≠ id) {n : ℕ} (hn : named n = false) :
    SameTo id named s (s.forget id' n) := by
  refine ⟨.refl id s.api, fun _ _ => rfl, ?_, fun m hm => ?_, fun _ _ => rfl, fun _ _ => Iff.rfl, rfl⟩
  · rw [get?_waiters_forget, if_neg fun h => hid h.1.symm]
  · rw [AgentServer.forget, OMap.get?_erase_of_ne _ (ne_of_named hm hn)]

theorem SameTo.finishWait (h : SameTo id named s s') {n : ℕ} (hn : named n = true) (r : Reply) :
    SameTo id named (s.finishWait id n r) (s'.finishWait id n r) := by
  have hforgot := h.forget n
  unfold AgentServer.finishWait
  dsimp only
  by_cases ha : (s.forget id n).Answered n
  · rw [if_pos ha, if_pos ((hforgot.answered hn).1 ha)]
    exact hforgot
  · rw [if_neg ha, if_neg (mt (hforgot.answered hn).2 ha)]
    exact hforgot.answer n r

private theorem sameTo_finishWait {id' : NodeId} (hid : id' ≠ id) {n : ℕ} (hn : named n = false) (r : Reply) :
    SameTo id named s (s.finishWait id' n r) := by
  have hforgot : SameTo id named s (s.forget id' n) := sameTo_forget hid hn
  unfold AgentServer.finishWait
  dsimp only
  split
  · exact hforgot
  · exact hforgot.trans (sameTo_answer hn r)

private theorem finishWait_frame (s : AgentServer σ) (id : NodeId) (n : ℕ) (r : Reply) :
    (s.finishWait id n r).api = s.api ∧ (s.finishWait id n r).reading = s.reading ∧
      (s.finishWait id n r).listening = s.listening := by
  unfold AgentServer.finishWait
  dsimp only
  split <;> exact ⟨rfl, rfl, rfl⟩

/-! ### Whose a request is -/

/-- The requests on their way and the waits are the node's when their numbers are named. -/
structure Owned (id : NodeId) (named : ℕ → Bool) (s : AgentServer σ) : Prop where
  sound : s.Sound
  synced : s.api.nodes.Synced
  reading : ∀ n q, s.reading.get? n = some q → (named n = true ↔ q.node = id) ∧ ∃ ip, q.who = AgentApi.who ip q.node
  listening : ∀ n id', s.listening.get? n = some id' → (named n = true ↔ id' = id)

private theorem Owned.waiter (hs : s.Owned id named) {id' : NodeId} {n : ℕ} (hw : s.waiters.get? id' = some n) :
    named n = true ↔ id' = id := hs.listening n id' ((hs.sound.waiters id' n).1 hw).1

private theorem Owned.timer (hs : s.Owned id named) {id' : NodeId} {n : ℕ} (ht : s.timers.get? n = some id') :
    named n = true ↔ id' = id := hs.waiter ((hs.sound.timers n id').1 ht)

private theorem Owned.not_named (hs : s.Owned id named) {id' : NodeId} {n : ℕ} (hw : s.waiters.get? id' = some n)
    (hid : id' ≠ id) : named n = false := by
  rw [← Bool.not_eq_true, hs.waiter hw]
  exact hid

/-- Ends of waits leave the requests as they are. -/
private theorem Owned.of_frame (hs : s.Owned id named) (hsound : s'.Sound) (hapi : s'.api = s.api)
    (hreading : s'.reading = s.reading) (hlistening : s'.listening = s.listening) : s'.Owned id named := by
  refine ⟨hsound, ?_, ?_, ?_⟩
  · rw [hapi]
    exact hs.synced
  · rw [hreading]
    exact hs.reading
  · rw [hlistening]
    exact hs.listening

theorem Owned.finishWait (hs : s.Owned id named) {id' : NodeId} {n : ℕ} (hw : s.waiters.get? id' = some n) (r : Reply) :
    (s.finishWait id' n r).Owned id named := by
  obtain ⟨hapi, hreading, hlistening⟩ := finishWait_frame s id' n r
  exact hs.of_frame (finishWait_of_open hs.sound hw r).2.2 hapi hreading hlistening

private theorem openWait_frame (s : AgentServer σ) (id : NodeId) (n : ℕ) :
    (s.openWait id n).api = s.api ∧ (s.openWait id n).reading = s.reading ∧
      (s.openWait id n).listening = s.listening.set n id := by
  unfold AgentServer.openWait
  cases s.waiters.get? id with
  | none => exact ⟨rfl, rfl, rfl⟩
  | some m =>
    obtain ⟨hapi, hreading, hlistening⟩ := finishWait_frame s id m .nothing
    refine ⟨hapi, hreading, ?_⟩
    dsimp only
    rw [hlistening]

variable (maxBody) in
private theorem api_head {n : ℕ} (hnew : n ∉ s.known) {h : Head} {t : ℤ} :
    (s.head maxBody n h t).api = (s.api.checkHead maxBody h t).1 := by
  rw [AgentServer.head, if_neg hnew]
  generalize s.api.checkHead maxBody h t = r
  obtain ⟨api, e | q⟩ := r <;> rfl

variable (c valid maxBody onSnapshot) in
/-- The body of a request, but for how many were accepted before its head. -/
private theorem body_of_reading {n : ℕ} {q p : Pending} (hq : s.reading.get? n = some q) (hp : q.unmarked = p)
    (b : Option (List UInt8)) (t : ℤ) : s.body c valid maxBody onSnapshot n b t =
      match (s.api.complete c valid maxBody p b t).2 with
      | .error e => { s with
          api := (s.api.complete c valid maxBody p b t).1, reading := s.reading.erase n }.answer n (.refused e)
      | .ok () => match p.endpoint with
        | .push => { s with
            api := (s.api.complete c valid maxBody p b t).1, reading := s.reading.erase n
            hub := onSnapshot s.hub p.node (b.getD []) t }.answer n .pushed
        | .wait => { s with
            api := (s.api.complete c valid maxBody p b t).1, reading := s.reading.erase n }.openWait p.node n := by
  rw [← hp, AgentApi.complete_unmarked]
  unfold AgentServer.body
  rw [hq]
  dsimp only
  generalize s.api.complete c valid maxBody q b t = r
  obtain ⟨api, e | ⟨⟨⟩⟩⟩ := r <;> rfl

variable (c valid maxBody onSnapshot) in
private theorem api_body {n : ℕ} {q p : Pending} (hq : s.reading.get? n = some q) (hp : q.unmarked = p)
    {b : Option (List UInt8)} {t : ℤ} :
    (s.body c valid maxBody onSnapshot n b t).api = (s.api.complete c valid maxBody p b t).1 := by
  rw [body_of_reading c valid maxBody onSnapshot hq hp]
  cases (s.api.complete c valid maxBody p b t).2 with
  | error e => rfl
  | ok u =>
    cases p.endpoint with
    | push => rfl
    | wait => exact (openWait_frame _ _ _).1

variable (maxBody) in
theorem Owned.head (hs : s.Owned id named) {n : ℕ} {h : Head} (hname : named n = true ↔ h.node.getD [] = id.1) (t : ℤ) :
    (s.head maxBody n h t).Owned id named := by
  have hsound : (s.head maxBody n h t).Sound := hs.sound.head n h t
  have hsync : (s.api.checkHead maxBody h t).1.nodes.Synced := by
    rcases (AgentApi.checkHead_spec maxBody s.api h t).2.1 with hnodes | hnodes
    · rw [hnodes]
      exact hs.synced
    · rw [hnodes, NodeStore.load_of_synced hs.synced]
      exact hs.synced
  have hq : ∀ q, (s.api.checkHead maxBody h t).2 = .ok q →
      h.node.getD [] = q.node.1 ∧ ∃ ip, q.who = AgentApi.who ip q.node :=
    fun q hq => AgentApi.named_of_checkHead maxBody hq
  revert hsound
  unfold AgentServer.head
  split
  · exact fun _ => hs
  · generalize s.api.checkHead maxBody h t = r at hsync hq ⊢
    obtain ⟨api, e | q⟩ := r
    · exact fun hsound => ⟨hsound, hsync, hs.reading, hs.listening⟩
    · refine fun hsound => ⟨hsound, hsync, fun m q' hq' => ?_, hs.listening⟩
      have hq' : (s.reading.set n q).get? m = some q' := hq'
      rw [OMap.get?_set] at hq'
      split at hq'
      · rename_i hm
        obtain rfl := Option.some.inj hq'
        obtain ⟨hnode, hwho⟩ := hq q rfl
        refine ⟨?_, hwho⟩
        rw [hm, hname, hnode]
        exact Subtype.ext_iff.symm
      · exact hs.reading m q' hq'

variable (c valid maxBody onSnapshot) in
theorem Owned.body (hs : s.Owned id named) (n : ℕ) (b : Option (List UInt8)) (t : ℤ) :
    (s.body c valid maxBody onSnapshot n b t).Owned id named := by
  have hsound : (s.body c valid maxBody onSnapshot n b t).Sound := hs.sound.step ⟨t, .body n b⟩
  revert hsound
  unfold AgentServer.body
  cases hq : s.reading.get? n with
  | none => exact fun _ => hs
  | some q =>
    obtain ⟨hnode, -⟩ := hs.reading n q hq
    have hreading : ∀ m q', (s.reading.erase n).get? m = some q' →
        (named m = true ↔ q'.node = id) ∧ ∃ ip, q'.who = AgentApi.who ip q'.node := by
      intro m q' hq'
      rw [OMap.get?_erase] at hq'
      split at hq'
      · cases hq'
      · exact hs.reading m q' hq'
    have hsync : (s.api.complete c valid maxBody q b t).1.nodes.Synced := by
      rcases AgentApi.complete_spec c valid maxBody s.api q b t with ⟨_, -, -, hokay⟩ | ⟨-, -, hnodes⟩
      · rw [hokay]
        exact hs.synced
      · rw [hnodes]
        exact hs.synced
    dsimp only
    generalize s.api.complete c valid maxBody q b t = r at hsync ⊢
    obtain ⟨api, e | ⟨⟨⟩⟩⟩ := r
    · exact fun hsound => ⟨hsound, hsync, hreading, hs.listening⟩
    · cases q.endpoint with
      | push => exact fun hsound => ⟨hsound, hsync, hreading, hs.listening⟩
      | wait =>
        dsimp only
        obtain ⟨hapi, hsame, hlistening⟩ := openWait_frame { s with api := api, reading := s.reading.erase n } q.node n
        refine fun hsound => ⟨hsound, ?_, ?_, fun m id' hid => ?_⟩
        · rw [hapi]
          exact hsync
        · rw [hsame]
          exact hreading
        · rw [hlistening, OMap.get?_set] at hid
          split at hid
          · rename_i hm
            rw [hm, ← Option.some.inj hid]
            exact hnode
          · exact hs.listening m id' hid

/-! ### Steps -/

/-- A step of the node's requests, a wake of the node, or a step of the whole server. -/
def Step.concerns (id : NodeId) (named : ℕ → Bool) (x : Step) : Bool :=
  match x.op with
  | .head n _ | .body n _ | .timeout n | .closed n => named n
  | .wake id' => id' = id
  | .close | .store _ => true

/-- The numbers `named` are those of the requests that name the node, which is listed. -/
def Names (id : NodeId) (named : ℕ → Bool) (s : AgentServer σ) (x : Step) : Prop :=
  match x.op with
  | .head n h => Addressed h.ip ∧ (named n = true ↔ h.node.getD [] = id.1) ∧
      (named n = true → (s.api.nodes.get id).2.isSome = true)
  | _ => True

instance (id : NodeId) (named : ℕ → Bool) (s : AgentServer σ) (x : Step) : Decidable (s.Names id named x) :=
  match x with
  | ⟨_, .head _ _⟩ => inferInstanceAs (Decidable (_ ∧ _ ∧ _))
  | ⟨_, .body _ _⟩ | ⟨_, .timeout _⟩ | ⟨_, .closed _⟩ | ⟨_, .wake _⟩ | ⟨_, .close⟩ | ⟨_, .store _⟩ => .isTrue trivial

theorem Owned.step (hs : s.Owned id named) {x : Step} (hx : s.Names id named x) :
    (s.step c valid maxBody onSnapshot x).Owned id named := by
  have hsound : (s.step c valid maxBody onSnapshot x).Sound := hs.sound.step x
  obtain ⟨t, op⟩ := x
  cases op with
  | head n h => exact hs.head maxBody hx.2.1 t
  | body n b => exact hs.body c valid maxBody onSnapshot n b t
  | timeout n =>
    show (s.timeout n).Owned id named
    unfold AgentServer.timeout
    split
    · rename_i id' hid
      exact hs.finishWait ((hs.sound.timers n id').1 hid) .nothing
    · exact hs
  | closed n =>
    revert hsound
    show (s.closed n).Sound → (s.closed n).Owned id named
    unfold AgentServer.closed
    split
    · exact fun hsound => hs.of_frame hsound rfl rfl rfl
    · exact fun _ => hs
  | wake id' =>
    show (s.wake id' t).Owned id named
    unfold AgentServer.wake
    split
    · rename_i n hn
      have hwoken : Owned id named { s with lastWake := s.lastWake.set id' t } :=
        hs.of_frame (hs.sound.congr s.api s.hub _) rfl rfl rfl
      exact hwoken.finishWait hn .sample
    · exact hs
  | close =>
    have hframe : ∀ (es : List (NodeId × ℕ)) (w : AgentServer σ),
        (es.foldl (fun s e => s.finishWait e.1 e.2 .nothing) w).api = w.api ∧
        (es.foldl (fun s e => s.finishWait e.1 e.2 .nothing) w).reading = w.reading ∧
        (es.foldl (fun s e => s.finishWait e.1 e.2 .nothing) w).listening = w.listening := by
      intro es
      induction es with
      | nil => exact fun w => ⟨rfl, rfl, rfl⟩
      | cons e es ih =>
        intro w
        obtain ⟨hapi, hreading, hlistening⟩ := ih (w.finishWait e.1 e.2 .nothing)
        obtain ⟨hapi', hreading', hlistening'⟩ := finishWait_frame w e.1 e.2 .nothing
        exact ⟨hapi.trans hapi', hreading.trans hreading', hlistening.trans hlistening'⟩
    obtain ⟨hapi, hreading, hlistening⟩ := hframe s.waiters.entries s
    exact hs.of_frame hsound hapi hreading hlistening
  | store op => exact ⟨hsound, (NodeStore.keeps_call hs.synced t op).synced, hs.reading, hs.listening⟩

/-! ### Steps of others -/

private theorem sameTo_openWait {id' : NodeId} (hid : id' ≠ id) {n : ℕ} (hn : named n = false)
    (hw : ∀ m, s.waiters.get? id' = some m → named m = false) : SameTo id named s (s.openWait id' n) := by
  have hset : ∀ w : AgentServer σ, SameTo id named w { w with
      timers := w.timers.set n id', waiters := w.waiters.set id' n, listening := w.listening.set n id' } := by
    intro w
    refine ⟨.refl id w.api, fun _ _ => rfl, ?_, fun m hm => ?_, fun m hm => ?_, fun _ _ => Iff.rfl, rfl⟩
    · exact (OMap.get?_set_of_ne _ hid.symm _).symm
    · exact (OMap.get?_set_of_ne _ (ne_of_named hm hn) _).symm
    · exact (OMap.get?_set_of_ne _ (ne_of_named hm hn) _).symm
  unfold AgentServer.openWait
  cases hwaits : s.waiters.get? id' with
  | none => exact hset s
  | some m => exact (sameTo_finishWait hid (hw m hwaits) .nothing).trans (hset _)

variable (maxBody) in
/-- A request that does not name the node comes in. -/
private theorem sameTo_head (hs : s.Owned id named) {n : ℕ} (hn : named n = false) {h : Head} (hip : Addressed h.ip)
    (hother : h.node.getD [] ≠ id.1) {t : ℤ} (hroom : s.api.Uncleared (s.head maxBody n h t).api) :
    SameTo id named s (s.head maxBody n h t) := by
  by_cases hnew : n ∈ s.known
  · rw [AgentServer.head, if_pos hnew]
    exact .refl id named s
  · rw [api_head maxBody hnew] at hroom
    have hapi := AgentApi.sameFor_checkHead maxBody hs.synced hip hother hroom
    have hknown : ∀ m, named m = true → (m ∈ s.known ↔ m ∈ n :: s.known) :=
      fun m hm => (List.mem_cons.trans (or_iff_right (ne_of_named hm hn))).symm
    rw [AgentServer.head, if_neg hnew]
    revert hapi
    generalize s.api.checkHead maxBody h t = r
    obtain ⟨api, e | q⟩ := r
    · intro hapi
      refine SameTo.trans ?_ (sameTo_answer hn _)
      exact ⟨hapi, fun _ _ => rfl, rfl, fun _ _ => rfl, fun _ _ => rfl, hknown, rfl⟩
    · intro hapi
      refine ⟨hapi, fun m hm => ?_, rfl, fun _ _ => rfl, fun _ _ => rfl, hknown, rfl⟩
      exact congrArg _ (OMap.get?_set_of_ne _ (ne_of_named hm hn) _).symm

variable (c valid maxBody onSnapshot) in
private theorem sameTo_body (hs : s.Owned id named) {n : ℕ} (hn : named n = false) {b : Option (List UInt8)} {t : ℤ}
    (hroom : s.api.Uncleared (s.body c valid maxBody onSnapshot n b t).api) :
    SameTo id named s (s.body c valid maxBody onSnapshot n b t) := by
  cases hq : s.reading.get? n with
  | none =>
    rw [AgentServer.body, hq]
    exact .refl id named s
  | some q =>
    obtain ⟨hnode, hwho⟩ := hs.reading n q hq
    have hother : q.node ≠ id := by
      intro hid
      rw [hnode.2 hid] at hn
      cases hn
    rw [api_body c valid maxBody onSnapshot hq rfl] at hroom
    have hapi := AgentApi.sameFor_complete c valid maxBody hother hwho hroom
    have hset : ∀ hub : σ, SameTo id named s
        { s with api := (s.api.complete c valid maxBody q b t).1, reading := s.reading.erase n, hub := hub } := by
      intro hub
      refine ⟨hapi, fun m hm => ?_, rfl, fun _ _ => rfl, fun _ _ => rfl, fun _ _ => Iff.rfl, rfl⟩
      exact congrArg _ (OMap.get?_erase_of_ne _ (ne_of_named hm hn)).symm
    rw [body_of_reading c valid maxBody onSnapshot hq rfl]
    cases (s.api.complete c valid maxBody q.unmarked b t).2 with
    | error e => exact (hset s.hub).trans (sameTo_answer hn _)
    | ok u =>
      cases q.unmarked.endpoint with
      | push => exact (hset _).trans (sameTo_answer hn _)
      | wait => exact (hset s.hub).trans (sameTo_openWait hother hn fun m hm => hs.not_named hm hother)

/-- A step that does not concern the node. -/
theorem sameTo_step (hs : s.Owned id named) {x : Step} (hx : s.Names id named x)
    (hroom : s.api.Uncleared (s.step c valid maxBody onSnapshot x).api) (hno : x.concerns id named = false) :
    SameTo id named s (s.step c valid maxBody onSnapshot x) := by
  obtain ⟨t, op⟩ := x
  cases op with
  | head n h =>
    obtain ⟨hip, hname, -⟩ := hx
    have hn : named n = false := hno
    refine sameTo_head maxBody hs hn hip (fun hnode => ?_) hroom
    rw [hname.2 hnode] at hn
    cases hn
  | body n b => exact sameTo_body c valid maxBody onSnapshot hs hno hroom
  | timeout n =>
    have hn : named n = false := hno
    show SameTo id named s (s.timeout n)
    unfold AgentServer.timeout
    split
    · rename_i id' ht
      refine sameTo_finishWait (fun hid => ?_) hn .nothing
      rw [(hs.timer ht).2 hid] at hn
      cases hn
    · exact .refl id named s
  | closed n =>
    have hn : named n = false := hno
    show SameTo id named s (s.closed n)
    unfold AgentServer.closed
    split
    · rename_i id' hl
      have hid : id' ≠ id := by
        intro hid
        rw [(hs.listening n id' hl).2 hid] at hn
        cases hn
      exact (sameTo_forget hid hn).unseen _ _ _ _ _ _
    · exact .refl id named s
  | wake id' =>
    have hid : id' ≠ id := of_decide_eq_false hno
    show SameTo id named s (s.wake id' t)
    unfold AgentServer.wake
    split
    · rename_i n hn
      exact ((SameTo.refl id named s).unseen _ _ _ _ _ _).trans (sameTo_finishWait hid (hs.not_named hn hid) .sample)
    · exact .refl id named s
  | close => cases hno
  | store op => cases hno

/-! ### Steps of the node -/

theorem SameTo.openWait (h : SameTo id named s s') {n : ℕ} (hw : ∀ m, s.waiters.get? id = some m → named m = true) :
    SameTo id named (s.openWait id n) (s'.openWait id n) := by
  have hset : ∀ w w' : AgentServer σ, SameTo id named w w' →
      SameTo id named
        { w with timers := w.timers.set n id, waiters := w.waiters.set id n, listening := w.listening.set n id }
        { w' with timers := w'.timers.set n id, waiters := w'.waiters.set id n, listening := w'.listening.set n id } := by
    intro w w' hsame
    refine ⟨hsame.api, hsame.reading, ?_, fun m hm => ?_, fun m hm => ?_, hsame.known, hsame.answers⟩
    · show (w.waiters.set id n).get? id = (w'.waiters.set id n).get? id
      rw [OMap.get?_set_self, OMap.get?_set_self]
    · show (w.timers.set n id).get? m = (w'.timers.set n id).get? m
      rw [OMap.get?_set, OMap.get?_set, hsame.timers m hm]
    · show (w.listening.set n id).get? m = (w'.listening.set n id).get? m
      rw [OMap.get?_set, OMap.get?_set, hsame.listening m hm]
  unfold AgentServer.openWait
  rw [← h.waiter]
  cases hwaits : s.waiters.get? id with
  | none => exact hset s s' h
  | some m => exact hset _ _ (h.finishWait (hw m hwaits) .nothing)

variable (maxBody) in
/-- A request that names the node comes in, to both. -/
theorem SameTo.head (h : SameTo id named s s') (hs : s.Owned id named) {n : ℕ} (hn : named n = true) {hd : Head}
    (hname : hd.node.getD [] = id.1) (hlisted : (s.api.nodes.get id).2.isSome = true) {t : ℤ}
    (hroom : s.api.Uncleared (s.head maxBody n hd t).api) (hroom' : s'.api.Uncleared (s'.head maxBody n hd t).api) :
    SameTo id named (s.head maxBody n hd t) (s'.head maxBody n hd t) := by
  by_cases hnew : n ∈ s.known
  · rw [AgentServer.head, AgentServer.head, if_pos hnew, if_pos ((h.known n hn).1 hnew)]
    exact h
  · have hnew' : n ∉ s'.known := mt (h.known n hn).2 hnew
    rw [api_head maxBody hnew] at hroom
    rw [api_head maxBody hnew'] at hroom'
    have hknown : ∀ m, named m = true → (m ∈ n :: s.known ↔ m ∈ n :: s'.known) := by
      intro m hm
      rw [List.mem_cons, List.mem_cons, h.known m hm]
    obtain ⟨hapi, hresult⟩ := h.api.checkHead maxBody hs.synced hname hlisted hroom hroom'
    rw [AgentServer.head, AgentServer.head, if_neg hnew, if_neg hnew']
    revert hapi hresult
    generalize s.api.checkHead maxBody hd t = r
    generalize s'.api.checkHead maxBody hd t = r'
    obtain ⟨api, e | q⟩ := r
    · obtain ⟨api', e' | q'⟩ := r'
      · intro hapi hresult
        obtain rfl := Except.error.inj hresult
        have hset : SameTo id named { s with api := api, known := n :: s.known }
            { s' with api := api', known := n :: s'.known } :=
          ⟨hapi, h.reading, h.waiter, h.timers, h.listening, hknown, h.answers⟩
        exact hset.answer n _
      · exact fun _ hresult => by cases hresult
    · obtain ⟨api', e' | q'⟩ := r'
      · exact fun _ hresult => by cases hresult
      · intro hapi hresult
        refine ⟨hapi, fun m hm => ?_, h.waiter, h.timers, h.listening, hknown, h.answers⟩
        show ((s.reading.set n q).get? m).map _ = ((s'.reading.set n q').get? m).map _
        rw [OMap.get?_set, OMap.get?_set]
        split
        · exact congrArg some (Except.ok.inj hresult)
        · exact h.reading m hm

variable (c valid maxBody onSnapshot) in
theorem SameTo.body (h : SameTo id named s s') (hs : s.Owned id named) {n : ℕ} (hn : named n = true)
    {b : Option (List UInt8)} {t : ℤ} (hroom : s.api.Uncleared (s.body c valid maxBody onSnapshot n b t).api)
    (hroom' : s'.api.Uncleared (s'.body c valid maxBody onSnapshot n b t).api) :
    SameTo id named (s.body c valid maxBody onSnapshot n b t) (s'.body c valid maxBody onSnapshot n b t) := by
  have hreading := h.reading n hn
  cases hq : s.reading.get? n with
  | none =>
    rw [hq] at hreading
    have hq' : s'.reading.get? n = none := Option.map_eq_none_iff.1 hreading.symm
    unfold AgentServer.body
    rw [hq, hq']
    exact h
  | some q =>
    rw [hq] at hreading
    obtain ⟨q', hq', hp⟩ := Option.map_eq_some_iff.1 hreading.symm
    obtain ⟨hnode, hwho⟩ := hs.reading n q hq
    rw [api_body c valid maxBody onSnapshot hq rfl] at hroom
    rw [api_body c valid maxBody onSnapshot hq' hp] at hroom'
    obtain ⟨hapi, hresult⟩ := h.api.complete c valid maxBody (q := q.unmarked) (hnode.1 hn) hwho hroom hroom'
    have hread : ∀ m, named m = true →
        ((s.reading.erase n).get? m).map Pending.unmarked = ((s'.reading.erase n).get? m).map Pending.unmarked := by
      intro m hm
      rw [OMap.get?_erase, OMap.get?_erase]
      split
      · rfl
      · exact h.reading m hm
    have hset : ∀ hub hub' : σ, SameTo id named
        { s with api := (s.api.complete c valid maxBody q.unmarked b t).1, reading := s.reading.erase n, hub := hub }
        { s' with api := (s'.api.complete c valid maxBody q.unmarked b t).1, reading := s'.reading.erase n, hub := hub' } :=
      fun _ _ => ⟨hapi, hread, h.waiter, h.timers, h.listening, h.known, h.answers⟩
    rw [body_of_reading c valid maxBody onSnapshot hq rfl, body_of_reading c valid maxBody onSnapshot hq' hp, ← hresult]
    cases (s.api.complete c valid maxBody q.unmarked b t).2 with
    | error e => exact (hset s.hub s'.hub).answer n _
    | ok u =>
      cases hend : q.unmarked.endpoint with
      | push => exact (hset _ _).answer n _
      | wait =>
        have hown : q.unmarked.node = id := hnode.1 hn
        dsimp only
        rw [hown]
        exact (hset s.hub s'.hub).openWait fun m hm => (hs.waiter hm).2 rfl

/-- The waits that end when the hub shuts down are open, each until its turn. -/
private theorem meets_finishWaits {es : List (NodeId × ℕ)} (hnodup : (es.map Prod.fst).Nodup) (hs : s.Sound)
    (hes : ∀ e ∈ es, s.waiters.get? e.1 = some e.2) :
    Runs.Meets (fun s e => s.finishWait e.1 e.2 .nothing) (fun s e => s.waiters.get? e.1 = some e.2) s es := by
  induction es generalizing s with
  | nil => trivial
  | cons e es ih =>
    rw [List.map_cons, List.nodup_cons] at hnodup
    have hopen := hes e List.mem_cons_self
    obtain ⟨-, hwaiters, hsound⟩ := finishWait_of_open hs hopen .nothing
    refine ⟨hopen, ih hnodup.2 hsound fun e' he' => ?_⟩
    have hne : e'.1 ≠ e.1 := by
      intro heq
      exact hnodup.1 (heq ▸ List.mem_map_of_mem he')
    rw [hwaiters, OMap.get?_erase_of_ne _ hne]
    exact hes e' (List.mem_cons_of_mem e he')

/-- The entry of a key is the only one. -/
private theorem filter_entries {ν : Type*} (m : OMap NodeId ν) (id : NodeId) :
    (m.entries.filter fun e => decide (e.1 = id)) = ((m.get? id).map fun v => (id, v)).toList := by
  have hmem : ∀ e, e ∈ (m.entries.filter fun e => decide (e.1 = id)) ↔
      e ∈ ((m.get? id).map fun v => (id, v)).toList := by
    rintro ⟨k, v⟩
    rw [List.mem_filter, OMap.mem_entries_iff, decide_eq_true_eq, Option.mem_toList, Option.map_eq_some_iff]
    constructor
    · rintro ⟨hv, rfl⟩
      exact ⟨v, hv, rfl⟩
    · rintro ⟨v', hv, heq⟩
      obtain ⟨rfl, rfl⟩ := Prod.mk.inj heq
      exact ⟨hv, rfl⟩
  have hnodup : (m.entries.filter fun e => decide (e.1 = id)).Nodup := (List.Nodup.of_map _ m.nodup).filter _
  have hperm := (List.perm_ext_iff_of_nodup hnodup (Option.toList_nodup _)).2 hmem
  cases hv : m.get? id with
  | none =>
    rw [hv] at hperm
    exact hperm.eq_nil
  | some v =>
    rw [hv] at hperm
    exact hperm.eq_singleton

theorem SameTo.close (h : SameTo id named s s') (hs : s.Owned id named) (hs' : s'.Owned id named) :
    SameTo id named s.close s'.close := by
  have hends : ∀ w : AgentServer σ, w.Owned id named → Runs.Meets (fun s e => s.finishWait e.1 e.2 .nothing)
      (fun s e => s.waiters.get? e.1 = some e.2) w w.waiters.entries :=
    fun w hw => meets_finishWaits w.waiters.nodup hw.sound fun e he => OMap.mem_entries_iff.1 he
  have hsame : (s.waiters.entries.filter fun e => decide (e.1 = id)) = s'.waiters.entries.filter fun e => decide (e.1 = id) := by
    rw [filter_entries, filter_entries, h.waiter]
  refine Runs.related_run sameTo_equivalence (fun w e hw hopen => hw.finishWait hopen .nothing)
    (fun w e hw hopen hno => ?_) (fun w w' e hw _ hopen _ hown hww => ?_) hsame hs hs' (hends s hs) (hends s' hs') h
  · have hid : e.1 ≠ id := of_decide_eq_false hno
    exact sameTo_finishWait hid (hw.not_named hopen hid) .nothing
  · have hid : e.1 = id := of_decide_eq_true hown
    have hnamed : named e.2 = true := (hw.waiter hopen).2 hid
    rw [hid]
    exact hww.finishWait hnamed .nothing

/-- A step that concerns the node, of both. -/
theorem SameTo.step (h : SameTo id named s s') (hs : s.Owned id named) (hs' : s'.Owned id named) {x : Step}
    (hx : s.Names id named x) (hroom : s.api.Uncleared (s.step c valid maxBody onSnapshot x).api)
    (hroom' : s'.api.Uncleared (s'.step c valid maxBody onSnapshot x).api) (hown : x.concerns id named = true) :
    SameTo id named (s.step c valid maxBody onSnapshot x) (s'.step c valid maxBody onSnapshot x) := by
  obtain ⟨t, op⟩ := x
  cases op with
  | head n hd =>
    obtain ⟨-, hname, hlisted⟩ := hx
    exact h.head maxBody hs hown (hname.1 hown) (hlisted hown) hroom hroom'
  | body n b => exact h.body c valid maxBody onSnapshot hs hown hroom hroom'
  | timeout n =>
    have hn : named n = true := hown
    show SameTo id named (s.timeout n) (s'.timeout n)
    unfold AgentServer.timeout
    rw [← h.timers n hn]
    cases ht : s.timers.get? n with
    | none => exact h
    | some id' =>
      obtain rfl := (hs.timer ht).1 hn
      exact h.finishWait hn .nothing
  | closed n =>
    have hn : named n = true := hown
    show SameTo id named (s.closed n) (s'.closed n)
    unfold AgentServer.closed
    rw [← h.listening n hn]
    cases hl : s.listening.get? n with
    | none => exact h
    | some id' =>
      obtain rfl := (hs.listening n id' hl).1 hn
      exact (h.forget n).unseen _ _ _ _ _ _
  | wake id' =>
    obtain rfl : id' = id := of_decide_eq_true hown
    show SameTo id' named (s.wake id' t) (s'.wake id' t)
    unfold AgentServer.wake
    rw [← h.waiter]
    cases hw : s.waiters.get? id' with
    | none => exact h
    | some n => exact (h.unseen _ _ _ _ _ _).finishWait ((hs.waiter hw).2 rfl) .sample
  | close => exact h.close hs hs'
  | store op =>
    have hnodes : s.api.nodes.call t op = s'.api.nodes.call t op := by rw [h.api.nodes]
    exact ⟨⟨hnodes, h.api.lastTs, h.api.lastPush, h.api.failures⟩, h.reading, h.waiter, h.timers, h.listening, h.known,
      h.answers⟩

/-! ### Two runs -/

variable (c valid maxBody onSnapshot) in
/-- A step in which the node is listed when it is named, and the failures counted are not cleared. -/
def Apart (id : NodeId) (named : ℕ → Bool) (s : AgentServer σ) (x : Step) : Prop :=
  s.Names id named x ∧ s.api.Uncleared (s.step c valid maxBody onSnapshot x).api

instance {x : Step} : Decidable (s.Apart c valid maxBody onSnapshot id named x) := inferInstanceAs (Decidable (_ ∧ _))

theorem owned_start {api : AgentApi} (hsync : api.nodes.Synced) (hub : σ) : (start api hub).Owned id named where
  sound := sound_start api hub
  synced := hsync
  reading n q hq := by cases hq
  listening n id' hid := by cases hid

/-- **Nodes do not lock each other out.**  Two runs of a hub have the same requests that name a node, at the same times
and from the same addresses, and any other requests: the requests that name the node have the same answers, while the
node is listed and the counted failures are not cleared. -/
theorem undisturbed (c : Crypto) (valid : List UInt8 → Bool) (maxBody : ℕ)
    (onSnapshot : σ → NodeId → List UInt8 → ℤ → σ) (file : Option (ℕ × OMap NodeId NodeRec))
    (replayFile : OMap (NodeId × Endpoint) ℕ) (accepted : List Accepted) (hostname : JsString) (drawn : NodeId)
    (secret : Secret) (t : ℤ) (hub : σ) (id : NodeId) (named : ℕ → Bool) {xs ys : List Step}
    (hxs : Runs.Meets (step c valid maxBody onSnapshot) (Apart c valid maxBody onSnapshot id named)
      (start (AgentApi.start file replayFile accepted hostname drawn secret t) hub) xs)
    (hys : Runs.Meets (step c valid maxBody onSnapshot) (Apart c valid maxBody onSnapshot id named)
      (start (AgentApi.start file replayFile accepted hostname drawn secret t) hub) ys)
    (hsame : xs.filter (Step.concerns id named) = ys.filter (Step.concerns id named)) :
    (Runs.run (step c valid maxBody onSnapshot)
        (start (AgentApi.start file replayFile accepted hostname drawn secret t) hub) xs).answers.filter (fun e => named e.1) =
      (Runs.run (step c valid maxBody onSnapshot)
        (start (AgentApi.start file replayFile accepted hostname drawn secret t) hub) ys).answers.filter fun e => named e.1 := by
  have hsync : (AgentApi.start file replayFile accepted hostname drawn secret t).nodes.Synced :=
    NodeStore.synced_ensureLocal file hostname drawn secret t
  have hstart : (start (AgentApi.start file replayFile accepted hostname drawn secret t) hub).Owned id named :=
    owned_start hsync hub
  have hkeep : ∀ (w : AgentServer σ) (x : Step), w.Owned id named → w.Apart c valid maxBody onSnapshot id named x →
      (w.step c valid maxBody onSnapshot x).Owned id named := fun _ _ hw hx => hw.step hx.1
  have hother : ∀ (w : AgentServer σ) (x : Step), w.Owned id named → w.Apart c valid maxBody onSnapshot id named x →
      x.concerns id named = false → SameTo id named w (w.step c valid maxBody onSnapshot x) :=
    fun _ _ hw hx hno => sameTo_step hw hx.1 hx.2 hno
  have hrel := Runs.related_run sameTo_equivalence hkeep hother
    (fun _ _ _ hw hw' hx hx' hown h => h.step hw hw' hx.1 hx.2 hx'.2 hown) hsame hstart hstart hxs hys (.refl id named _)
  exact hrel.answers

/-- A wait request of the local node. -/
def waiting : Head := { AgentApi.copied with node := some (js "wellwellwell") }

/-- A request of an unknown node from the address of the local node's agent. -/
def stranger : Head := { AgentApi.copied with node := some (js "mmmmmmmmmmmm") }

/-- A process of the hub with its local node. -/
def fresh : AgentServer Unit :=
  start (AgentApi.start none .empty [] (js "nas") ⟨js "wellwellwell", by decide⟩ AgentApi.copiedSecret 1699999999000) ()

/-- A wait of the local node until its timer fires, alone and between two requests of an unknown node. -/
theorem wait_undisturbed :
    (Runs.run (step AgentApi.copiedCrypto (fun _ => false) 262144 fun _ _ _ _ => ()) fresh
        [⟨1700000000100, .head 0 waiting⟩, ⟨1700000000300, .body 0 (some [])⟩,
          ⟨1700000030300, .timeout 0⟩]).answers.filter (fun e => e.1 == 0) =
      (Runs.run (step AgentApi.copiedCrypto (fun _ => false) 262144 fun _ _ _ _ => ()) fresh
        [⟨1700000000000, .head 1 stranger⟩, ⟨1700000000100, .head 0 waiting⟩, ⟨1700000000200, .head 2 stranger⟩,
          ⟨1700000000300, .body 0 (some [])⟩, ⟨1700000030300, .timeout 0⟩]).answers.filter fun e => e.1 == 0 :=
  undisturbed AgentApi.copiedCrypto (fun _ => false) 262144 (fun _ _ _ _ => ()) none .empty [] (js "nas")
    ⟨js "wellwellwell", by decide⟩ AgentApi.copiedSecret 1699999999000 () ⟨js "wellwellwell", by decide⟩ (fun n => n == 0)
    (by decide +kernel) (by decide +kernel) rfl

end AgentServer

end Servitals
